import Mathlib.Algebra.Order.Ring.Int
import Tcng.Lib.Ends
import Tcng.Sprintf

/-! What both passes of `sprintf_generic.c` have to agree on. -/

namespace Tcng.Sprintf

open Scan

variable {α φ : Type}

/-! ## What a format asks for -/

/-- The text that is padded, with what the first pass takes for its length. -/
inductive Value where
  | text (len : Int) (text : List Char)
  | float (text : List Char)
  | percent

/-- A conversion with its field width, as each of the passes reads it. -/
structure Item where
  first : Int
  second : Int
  value : Value

namespace Item

def reserved (item : Item) : Int :=
  match item.value with
  | .text len _ => max len item.first
  | .float text => max text.length item.first.natAbs
  | .percent => 1

def written (item : Item) : Nat :=
  match item.value with
  | .text _ text => max text.length item.second.natAbs
  | .float text => max text.length item.second.natAbs
  | .percent => 1

end Item

variable (w : Nat) (ops : Ops α φ) (fixed : Option Nat → φ → List Char)

/-- A minus sign has to be followed by the width. -/
def bothWidths (s : List Char) : Except Error ((Int × Int) × List Char) :=
  if isMinus s && !startsWithDigit s.tail then .error .abort
  else
    let (n, rest) := scanDigits 10 Char.isDigit (if isMinus s then s.tail else s)
    .ok ((asInt (toUlong w false n), asInt (toLong w (isMinus s) n)), rest)

def bothStars (widths : Int × Int) (s : List Char) (args : List α) :
    Except Error ((Int × Int) × List Char × List α) := do
  if s.head? = some '*' then
    let min ← current ops.getSint args
    let args ← nextArg args
    pure ((min.toInt.natAbs, min.toInt), s.tail, args)
  else pure (widths, s, args)

def preciseValue (len : Int) (s : List Char) (args : List α) :
    Except Error (Value × List α) := do
  if conversion s = some .s then
    let string ← current ops.getString args
    let args ← nextArg args
    pure (.text (min (asInt string.length) len) (cut len string), args)
  else
    let x ← current ops.getFloat args
    let args ← nextArg args
    pure (.float (fixed (givenPrecision len) x), args)

def numberValue (base : Nat) (args : List α) : Except Error (Value × List α) := do
  let n ← current ops.getUint args
  let args ← nextArg args
  let text := Nat.toDigits base n.toNat
  pure (.text text.length text, args)

/-- The argument of `%c` has to be a number. -/
def simpleValue (s : List Char) (args : List α) :
    Except Error (Value × List α) := do
  match conversion s with
  | some .c =>
      let n ← current ops.getSint args
      let args ← nextArg args
      pure (.text 1 [Char.ofNat (n.toNat % 256)], args)
  | some .s =>
      let string ← current ops.getString args
      let args ← nextArg args
      pure (.text (asInt string.length) string, args)
  | some .d =>
      let n ← current ops.getSint args
      let args ← nextArg args
      pure (.text (signedText n.toInt).length (signedText n.toInt), args)
  | some .u => numberValue ops 10 args
  | some .o => numberValue ops 8 args
  | some .x | some .upperX => numberValue ops 16 args
  | some .f =>
      let x ← current ops.getFloat args
      let args ← nextArg args
      pure (.float (fixed none x), args)
  | some .percent => pure (.percent, args)
  | none => throw .abort

def itemDirective (s : List Char) (args : List α) :
    Except Error (Item × List Char × List α) := do
  let (widths, s) ← bothWidths w s
  let (widths, s, args) ← bothStars ops widths s args
  if s.head? = some '.' then
    let (len, s, args) ← precision w ops .abort s.tail args
    let (value, args) ← preciseValue ops fixed len s args
    pure (⟨widths.1, widths.2, value⟩, s.tail, args)
  else
    let (value, args) ← simpleValue ops fixed s args
    pure (⟨widths.1, widths.2, value⟩, s.tail, args)

def itemLoop :
    Nat → List Char → List α → List Item → Except Error (List Item × List α) :=
  overFormat (fun _ items => .ok items) fun s args items => do
    let (item, s, args) ← itemDirective w ops fixed s args
    pure (items ++ [item], s, args)

/-- The conversions of a format, and the arguments that are left over. -/
def itemsOf (fmt : List Char) (args : List α) :
    Except Error (List Item × List α) :=
  itemLoop w ops fixed (fmt.length + 1) fmt args []

/-- The second pass ends, takes the arguments that the first one took, and
writes as much as it reserved. -/
def PassesAgree (fmt : List Char) (args : List α) (total : Int)
    (rest : List α) : Prop :=
  ∃ text, secondPass w ops fixed fmt args = .ok (text, rest) ∧
    text.length = total

/-- Every conversion can be written, and they need as much as has been
reserved. -/
def Balanced (fmt : List Char) (args rest : List α) : Prop :=
  ∃ items, itemsOf w ops fixed fmt args = .ok (items, rest) ∧
    (items.map Item.reserved).sum =
      (items.map fun item => (item.written : Int)).sum

/-! ## The library -/

@[simp] theorem length_padded (zero : Bool) (width : Int) (text : List Char) :
    (padded zero width text).length = max text.length width.natAbs := by
  simp only [padded]
  split
  · simp only [List.length_append, List.length_replicate]
    omega
  · split
    · split
      · next hminus =>
        obtain ⟨rest, rfl⟩ := isMinus_iff.mp hminus
        simp only [List.length_cons, List.length_append, List.length_replicate,
          List.tail_cons]
        omega
      · simp only [List.length_append, List.length_replicate]
        omega
    · simp only [List.length_append, List.length_replicate]
      omega

theorem countDigits_eq {base fuel value : Nat} (hbase : 1 < base)
    (hvalue : value ≠ 0) (hfuel : value ≤ fuel) :
    countDigits base fuel value = (Nat.toDigits base value).length := by
  induction fuel generalizing value with
  | zero => omega
  | succ fuel ih =>
      rw [countDigits, if_neg hvalue]
      rcases Nat.lt_or_ge value base with hlt | hge
      · rw [Nat.div_eq_of_lt hlt, Nat.toDigits_of_lt_base hlt]
        cases fuel with
        | zero => rfl
        | succ fuel => rfl
      · have hsmaller := Nat.div_lt_self (Nat.pos_of_ne_zero hvalue) hbase
        have hpos : value / base ≠ 0 :=
          (Nat.div_pos hge (by omega)).ne'
        rw [ih hpos (by omega), Nat.toDigits_of_base_le hbase hge]
        simp

theorem log_eq {base : Nat} (hbase : 1 < base) (value : Nat) :
    log base value = (Nat.toDigits base value).length := by
  rw [log]
  split
  · next hzero =>
    rw [hzero, Nat.toDigits_of_lt_base (by omega)]
    rfl
  · next hvalue => exact countDigits_eq hbase hvalue (Nat.le_refl _)

theorem checkInt_eq_ok {n m : Int} : checkInt n = .ok m ↔
    (intMin ≤ n ∧ n ≤ intMax) ∧ n = m := by
  rw [checkInt]
  split
  · next h => simp [h]
  · next h => simp [h]

theorem reserve_eq (len min : Int) : reserve len min = max len min := by
  rw [reserve]
  split <;> omega

theorem dummyLength_eq_ok {text : List Char} {n : Int} :
    dummyLength text = .ok n ↔ text.length < 100 ∧ (text.length : Int) = n := by
  rw [dummyLength]
  split
  · next h => simp [h]
  · next h => simp [h]

/-! ## One conversion -/

section

variable {w ops fixed} {s : List Char} {args : List α}

/-- The second pass stops at a minus sign that no number follows. -/
theorem width_lost (h : (isMinus s && !startsWithDigit s.tail) = true) :
    (∀ r, itemDirective w ops fixed s args ≠ .ok r) ∧
      ∀ r, secondDirective w ops fixed s args ≠ .ok r := by
  simp only [Bool.and_eq_true, Bool.not_eq_true'] at h
  obtain ⟨hminus, hdigit⟩ := h
  obtain ⟨rest, rfl⟩ := isMinus_iff.mp hminus
  rw [List.tail_cons] at hdigit
  constructor
  · intro r h
    simp [itemDirective, bothWidths, hminus, hdigit] at h
    cases h
  · intro r h
    have hscan : strtol w ('-' :: rest) = (0, '-' :: rest) := by
      rw [strtol, scanSigned_minus, hdigit]
      rfl
    simp [secondDirective, secondWidth, hscan, secondStar, secondSimple,
      conversion, Conversion.ofChar, hminus] at h
    cases h

theorem width_spec (h : (isMinus s && !startsWithDigit s.tail) = false) :
    ∃ first second rest,
      bothWidths w s = .ok ((first, second), rest) ∧
      firstWidth w s = (first, rest) ∧
      ∃ zero, secondWidth w s = (second, zero, rest) := by
  rw [bothWidths, h]
  cases hminus : isMinus s with
  | true =>
      obtain ⟨rest, rfl⟩ := isMinus_iff.mp hminus
      have hdigit : startsWithDigit rest = true := by
        simpa [hminus] using h
      refine ⟨_, _, _, rfl, ?_, ?minusZero, ?second⟩
      case second =>
        simp only [secondWidth, hminus, strtol, scanSigned_minus, hdigit]
        rfl
      simp only [firstWidth, hminus, strtoul, List.tail_cons, if_true,
        Bool.true_or, scanSigned_digit hdigit]
      rfl
  | false =>
      cases hdigit : startsWithDigit s with
      | true =>
          refine ⟨_, _, _, rfl, ?_, ?digitZero, ?second⟩
          case second =>
            simp only [secondWidth, hminus, hdigit, strtol,
              scanSigned_digit hdigit]
            rfl
          simp only [firstWidth, hminus, hdigit, strtoul, Bool.or_true,
            if_true, Bool.false_eq_true, if_false, scanSigned_digit hdigit]
          rfl
      | false =>
          have hscan : scanDigits 10 Char.isDigit s = (0, s) := by
            cases s with
            | nil => rfl
            | cons c s =>
                have hc : c.isDigit = false := by
                  simpa [startsWithDigit] using hdigit
                simp [scanDigits, hc]
          have hzero : asInt (toUlong w false 0) = 0 := by
            rw [toUlong, if_neg (Nat.not_le.mpr (Nat.two_pow_pos w))]
            rfl
          have hzero' : asInt (toLong w false 0) = 0 := by
            rw [toLong, if_neg (by decide), if_pos (Nat.two_pow_pos _)]
            rfl
          refine ⟨0, 0, s, ?_, ?_, false, ?_⟩
          · simp [hscan, hzero, hzero']
          · simp [firstWidth, hminus, hdigit]
          · simp [secondWidth, hminus, hdigit]

theorem star_spec {first min : Int} {rest : List Char} {args' : List α}
    (h : firstStar ops first s args = .ok (min, rest, args')) (second : Int) :
    ∃ width, bothStars ops (first, second) s args =
        .ok ((min, width), rest, args') ∧
      secondStar ops second s args = .ok (width, rest, args') := by
  rw [firstStar] at h
  split at h
  · next hstar =>
    simp only [Except.bind_eq_ok] at h
    obtain ⟨word, hword, args₁, hargs, h⟩ := h
    have hmin : ((word.toInt.natAbs : Int), s.tail, args₁) =
        (min, rest, args') := by
      split at h
      · next hneg =>
        obtain ⟨m, hm, h⟩ := Except.bind_eq_ok.mp h
        obtain ⟨-, rfl⟩ := checkInt_eq_ok.mp hm
        rw [← Except.ok.inj h, Int.ofNat_natAbs_of_nonpos (by omega)]
      · next hpos =>
        rw [← Except.ok.inj h, Int.natAbs_of_nonneg (by omega)]
    cases hmin
    refine ⟨word.toInt, ?_, ?_⟩
    · simp only [bothStars, if_pos hstar, hword, hargs]
      rfl
    · simp only [secondStar, if_pos hstar, hword, hargs]
      rfl
  · next hstar =>
    cases h
    exact ⟨second, by rw [bothStars, if_neg hstar]; rfl,
      by rw [secondStar, if_neg hstar]; rfl⟩

theorem precision_spec {missing missing' : Error} {len : Int}
    {rest : List Char} {args' : List α}
    (h : precision w ops missing s args = .ok (len, rest, args')) :
    precision w ops missing' s args = .ok (len, rest, args') := by
  rw [precision] at h ⊢
  split at h
  · next hdigit =>
    rw [if_pos hdigit]
    exact h
  · next hdigit =>
    rw [if_neg hdigit]
    split at h
    · cases h
    · next hstar =>
      rw [if_neg hstar]
      exact h

/-- A value that both passes take, with the width as each of them knows it. -/
def Written (first second n : Int) (args : List α)
    (value : Except Error (Value × List α))
    (result : Except Error (List Char × List α)) : Prop :=
  ∃ v text, value = .ok (v, args) ∧ result = .ok (text, args) ∧
    Item.reserved ⟨first, second, v⟩ = n ∧
    Item.written ⟨first, second, v⟩ = text.length

theorem precise_spec {first len n : Int} {args' : List α}
    (h : firstPrecise ops fixed first len s args = .ok (n, args'))
    (zero : Bool) (second : Int) :
    Written first second n args' (preciseValue ops fixed len s args)
      (secondPrecise ops fixed zero second len s args) := by
  rw [firstPrecise] at h
  split at h
  · next hs =>
    simp only [Except.bind_eq_ok] at h
    obtain ⟨string, hstring, args₁, hargs, h⟩ := h
    cases h
    refine ⟨.text (min (asInt string.length) len) (cut len string),
      padded false second (cut len string), ?_, ?_, ?_, ?_⟩
    · simp only [preciseValue, if_pos hs, hstring, hargs]
      rfl
    · simp only [secondPrecise, if_pos hs, hstring, hargs]
      rfl
    · rw [reserve_eq]
      simp only [Item.reserved]
      split <;> omega
    · simp [Item.written]
  · next hf =>
    simp only [Except.bind_eq_ok] at h
    obtain ⟨x, hx, n', hdummy, args₁, hargs, h⟩ := h
    obtain ⟨-, rfl⟩ := dummyLength_eq_ok.mp hdummy
    cases h
    have hs : conversion s ≠ some .s := by simp [hf]
    refine ⟨.float (fixed (givenPrecision len) x),
      padded zero second (fixed (givenPrecision len) x), ?_, ?_, ?_, ?_⟩
    · simp only [preciseValue, if_neg hs, hx, hargs]
      rfl
    · simp only [secondPrecise, if_neg hs, if_pos hf, hx, hargs]
      rfl
    · rw [reserve_eq, max_self, length_padded]
      simp only [Item.reserved]
      omega
    · simp [Item.written]
  · cases h

theorem number_spec {base : Nat} (hbase : 1 < base) {first n : Int}
    {args' : List α}
    (h : (do
      let n ← current ops.getUint args
      let args ← nextArg args
      pure (reserve (log base n.toNat) first, args)) =
        (.ok (n, args') : Except Error (Int × List α)))
    (zero : Bool) (second : Int) (display : List Char → List Char)
    (hdisplay : ∀ text, (display text).length = text.length) :
    Written first second n args' (numberValue ops base args) (do
      let n ← current ops.getUint args
      let args ← nextArg args
      pure (padded zero second (display (Nat.toDigits base n.toNat)), args)) := by
  simp only [Except.bind_eq_ok] at h
  obtain ⟨word, hword, args₁, hargs, h⟩ := h
  cases h
  refine ⟨.text (Nat.toDigits base word.toNat).length
    (Nat.toDigits base word.toNat),
    padded zero second (display (Nat.toDigits base word.toNat)), ?_, ?_, ?_, ?_⟩
  · simp only [numberValue, hword, hargs]
    rfl
  · simp only [hword, hargs]
    rfl
  · simp only [Item.reserved, reserve_eq, log_eq hbase]
  · simp [Item.written, hdisplay]

theorem signedText_length (n : Int) :
    ((signedText n).length : Int) =
      (if n < 0 then 1 else 0) + (Nat.toDigits 10 n.natAbs).length := by
  rw [signedText]
  split
  · rw [List.length_cons]
    omega
  · omega

/-- Only the argument of `%c` is not looked at by the first pass. -/
theorem simple_spec {first n : Int} {args' : List α}
    (h : firstSimple ops fixed first s args = .ok (n, args'))
    (zero : Bool) (second : Int) :
    Written first second n args' (simpleValue ops fixed s args)
        (secondSimple ops fixed zero second s args) ∨
      (∀ r, simpleValue ops fixed s args ≠ .ok r) ∧
        ∀ r, secondSimple ops fixed zero second s args ≠ .ok r := by
  cases hconv : conversion s with
  | none =>
      simp only [firstSimple, hconv] at h
      cases h
  | some conv =>
      cases conv with
      | c =>
          simp only [firstSimple, hconv, Except.bind_eq_ok] at h
          obtain ⟨args₁, hargs, h⟩ := h
          cases h
          cases hword : current ops.getSint args with
          | error e =>
              right
              constructor
              · intro r hr
                simp only [simpleValue, hconv, hword] at hr
                cases hr
              · intro r hr
                simp only [secondSimple, hconv, hword] at hr
                cases hr
          | ok word =>
              left
              refine ⟨.text 1 [Char.ofNat (word.toNat % 256)],
                padded false second [Char.ofNat (word.toNat % 256)], ?_, ?_, ?_, ?_⟩
              · simp only [simpleValue, hconv, hword, hargs]
                rfl
              · simp only [secondSimple, hconv, hword, hargs]
                rfl
              · rw [reserve_eq]
                rfl
              · simp [Item.written]
      | s =>
          left
          simp only [firstSimple, hconv, Except.bind_eq_ok] at h
          obtain ⟨string, hstring, args₁, hargs, h⟩ := h
          cases h
          refine ⟨.text (asInt string.length) string,
            padded false second string, ?_, ?_, ?_, ?_⟩
          · simp only [simpleValue, hconv, hstring, hargs]
            rfl
          · simp only [secondSimple, hconv, hstring, hargs]
            rfl
          · rw [reserve_eq]
            rfl
          · simp [Item.written]
      | d =>
          left
          simp only [firstSimple, hconv, Except.bind_eq_ok] at h
          obtain ⟨word, hword, args₁, hargs, h⟩ := h
          have hn : max ((signedText word.toInt).length : Int) first = n ∧
              args₁ = args' := by
            rw [signedText_length]
            split at h
            · next hneg =>
              obtain ⟨m, hm, h⟩ := Except.bind_eq_ok.mp h
              obtain ⟨-, rfl⟩ := checkInt_eq_ok.mp hm
              cases h
              rw [reserve_eq, log_eq (by decide), if_pos hneg,
                show (-word.toInt).toNat = word.toInt.natAbs by omega]
              exact ⟨rfl, rfl⟩
            · next hpos =>
              cases h
              rw [reserve_eq, log_eq (by decide), if_neg hpos,
                show word.toInt.toNat = word.toInt.natAbs by omega, zero_add]
              exact ⟨rfl, rfl⟩
          obtain ⟨rfl, rfl⟩ := hn
          refine ⟨.text (signedText word.toInt).length (signedText word.toInt),
            padded zero second (signedText word.toInt), ?_, ?_, rfl, ?_⟩
          · simp only [simpleValue, hconv, hword, hargs]
            rfl
          · simp only [secondSimple, hconv, hword, hargs]
            rfl
          · simp [Item.written]
      | u =>
          left
          simp only [firstSimple, hconv] at h
          simp only [simpleValue, secondSimple, hconv]
          exact number_spec (by decide) h zero second id fun _ => rfl
      | o =>
          left
          simp only [firstSimple, hconv] at h
          simp only [simpleValue, secondSimple, hconv]
          exact number_spec (by decide) h zero second id fun _ => rfl
      | x =>
          left
          simp only [firstSimple, hconv] at h
          simp only [simpleValue, secondSimple, hconv]
          exact number_spec (by decide) h zero second id fun _ => rfl
      | upperX =>
          left
          simp only [firstSimple, hconv] at h
          simp only [simpleValue, secondSimple, hconv]
          exact number_spec (by decide) h zero second (List.map Char.toUpper)
            fun _ => List.length_map _
      | f =>
          left
          simp only [firstSimple, hconv, Except.bind_eq_ok] at h
          obtain ⟨x, hx, n', hdummy, args₁, hargs, h⟩ := h
          obtain ⟨-, rfl⟩ := dummyLength_eq_ok.mp hdummy
          cases h
          refine ⟨.float (fixed none x), padded zero second (fixed none x),
            ?_, ?_, ?_, ?_⟩
          · simp only [simpleValue, hconv, hx, hargs]
            rfl
          · simp only [secondSimple, hconv, hx, hargs]
            rfl
          · rw [reserve_eq, max_self, length_padded]
            simp only [Item.reserved]
            omega
          · simp [Item.written]
      | percent =>
          left
          simp only [firstSimple, hconv] at h
          cases h
          exact ⟨.percent, ['%'], by simp only [simpleValue, hconv]; rfl,
            by simp only [secondSimple, hconv]; rfl, rfl, rfl⟩

/-- After what the first pass accepts, the second one stands at the same place,
or does not return. -/
theorem directive_spec {n : Int} {rest : List Char} {args' : List α}
    (h : firstDirective w ops fixed s args = .ok (n, rest, args')) :
    (∃ item text, itemDirective w ops fixed s args = .ok (item, rest, args') ∧
      secondDirective w ops fixed s args = .ok (text, rest, args') ∧
      item.reserved = n ∧ item.written = text.length) ∨
    (∀ r, itemDirective w ops fixed s args ≠ .ok r) ∧
      ∀ r, secondDirective w ops fixed s args ≠ .ok r := by
  cases hlost : (isMinus s && !startsWithDigit s.tail) with
  | true => exact .inr (width_lost hlost)
  | false =>
      obtain ⟨first, second, s₁, hboth, hfirst, zero, hsecond⟩ :=
        width_spec (w := w) hlost
      simp only [firstDirective, hfirst, Except.bind_eq_ok] at h
      obtain ⟨⟨min, s₂, args₁⟩, hstar, h⟩ := h
      obtain ⟨width, hstars, hstar₂⟩ := star_spec hstar second
      simp only [itemDirective, secondDirective, hboth, hsecond, hstars,
        hstar₂, Except.ok_bind]
      simp only at h
      split at h
      · next hdot =>
        obtain ⟨⟨len, s₃, args₂⟩, hlen, h⟩ := Except.bind_eq_ok.mp h
        obtain ⟨⟨n', args₃⟩, hvalue, h⟩ := Except.bind_eq_ok.mp h
        cases h
        obtain ⟨v, text, hv, htext, hreserved, hwritten⟩ :=
          precise_spec hvalue zero width
        simp only [if_pos hdot, precision_spec hlen, Except.ok_bind, hv, htext]
        exact .inl ⟨⟨min, width, v⟩, text, rfl, rfl, hreserved, hwritten⟩
      · next hdot =>
        obtain ⟨⟨n', args₃⟩, hvalue, h⟩ := Except.bind_eq_ok.mp h
        cases h
        simp only [if_neg hdot]
        rcases simple_spec hvalue zero width with
          ⟨v, text, hv, htext, hreserved, hwritten⟩ | ⟨hvalue, htext⟩
        · simp only [hv, htext, Except.ok_bind]
          exact .inl ⟨⟨min, width, v⟩, text, rfl, rfl, hreserved, hwritten⟩
        · right
          constructor
          · intro r hr
            obtain ⟨a, ha, -⟩ := Except.bind_eq_ok.mp hr
            exact hvalue a ha
          · intro r hr
            obtain ⟨a, ha, -⟩ := Except.bind_eq_ok.mp hr
            exact htext a ha

end

/-! ## The whole format -/

section

variable {w ops fixed}

/-- The loops take the same turns, and keep the difference between what has
been reserved and what has been written. -/
theorem loop_spec {fuel : Nat} {s : List Char} {args rest : List α}
    {total total' : Int}
    (h : firstLoop w ops fixed fuel s args total = .ok (total', rest))
    (items : List Item) (text : List Char) :
    (∃ items' text',
      itemLoop w ops fixed fuel s args items = .ok (items ++ items', rest) ∧
      secondLoop w ops fixed fuel s args text = .ok (text ++ text', rest) ∧
      total' + (items'.map fun item => (item.written : Int)).sum =
        total + text'.length + (items'.map Item.reserved).sum) ∨
    (∀ r, itemLoop w ops fixed fuel s args items ≠ .ok r) ∧
      ∀ r, secondLoop w ops fixed fuel s args text ≠ .ok r := by
  induction fuel generalizing s args total items text with
  | zero => cases h
  | succ fuel ih =>
      cases s with
      | nil =>
          cases h
          refine .inl ⟨[], [], ?_, ?_, by simp⟩
          · rw [List.append_nil]
            rfl
          · rw [List.append_nil]
            rfl
      | cons c s =>
          simp only [firstLoop, itemLoop, secondLoop, overFormat] at h ⊢
          split at h
          · next hplain =>
            obtain ⟨total₁, htotal, h⟩ := Except.bind_eq_ok.mp h
            obtain ⟨-, rfl⟩ := checkInt_eq_ok.mp htotal
            simp only [if_pos hplain, Except.ok_bind]
            rcases ih h items (text ++ [c]) with
              ⟨items', text', hitems, htext, hsum⟩ | hlost
            · refine .inl ⟨items', c :: text', hitems, ?_, ?_⟩
              · rw [← List.append_cons] at htext
                exact htext
              · rw [List.length_cons]
                push_cast
                omega
            · exact .inr hlost
          · next hpercent =>
            obtain ⟨⟨total₁, s₁, args₁⟩, hstep, h⟩ := Except.bind_eq_ok.mp h
            obtain ⟨⟨n, s₂, args₂⟩, hdirective, hstep⟩ :=
              Except.bind_eq_ok.mp hstep
            obtain ⟨total₂, htotal, hstep⟩ := Except.bind_eq_ok.mp hstep
            obtain ⟨-, rfl⟩ := checkInt_eq_ok.mp htotal
            cases hstep
            simp only [if_neg hpercent]
            rcases directive_spec hdirective with
              ⟨item, new, hitem, hnew, hreserved, hwritten⟩ | ⟨hitem, hnew⟩
            · simp only [hitem, hnew, Except.ok_bind]
              rcases ih h (items ++ [item]) (text ++ new) with
                ⟨items', text', hitems, htext, hsum⟩ | hlost
              · refine .inl ⟨item :: items', new ++ text', ?_, ?_, ?_⟩
                · rw [← List.append_cons] at hitems
                  exact hitems
                · rw [List.append_assoc] at htext
                  exact htext
                · simp only [List.map_cons, List.sum_cons, List.length_append]
                  push_cast
                  omega
              · exact .inr hlost
            · right
              constructor
              · intro r hr
                simp only [Except.bind_eq_ok] at hr
                obtain ⟨-, ⟨a, ha, -⟩, -⟩ := hr
                exact hitem a ha
              · intro r hr
                simp only [Except.bind_eq_ok] at hr
                obtain ⟨-, ⟨a, ha, -⟩, -⟩ := hr
                exact hnew a ha

end

/-! ## The loops end -/

section

variable {w ops fixed}

theorem current_ends {β : Type} (get : α → Except String β) (args : List α) :
    (current get args).Ends (fun _ => True) (· ≠ .outOfFuel) := by
  cases args with
  | nil => exact fun h => by cases h
  | cons arg args =>
      rw [current]
      cases get arg with
      | error e => exact fun h => by cases h
      | ok b => trivial

theorem nextArg_ends (args : List α) :
    (nextArg args).Ends (fun _ => True) (· ≠ .outOfFuel) := by
  cases args with
  | nil => exact fun h => by cases h
  | cons arg args => trivial

theorem checkInt_ends (n : Int) :
    (checkInt n).Ends (fun _ => True) (· ≠ .outOfFuel) := by
  rw [checkInt]
  split
  · trivial
  · exact fun h => by cases h

theorem dummyLength_ends (text : List Char) :
    (dummyLength text).Ends (fun _ => True) (· ≠ .outOfFuel) := by
  rw [dummyLength]
  split
  · trivial
  · exact fun h => by cases h

theorem firstWidth_suffix (s : List Char) : (firstWidth w s).2 <:+ s := by
  rw [firstWidth]
  split
  · refine (strtoul_suffix w _).trans ?_
    split
    · exact List.tail_suffix s
    · exact List.suffix_refl s
  · exact List.suffix_refl s

theorem firstStar_ends (min : Int) (s : List Char) (args : List α) :
    (firstStar ops min s args).Ends (fun r => r.2.1 <:+ s)
      (· ≠ .outOfFuel) := by
  rw [firstStar]
  split
  · refine (current_ends _ _).bind fun word _ => ?_
    refine (nextArg_ends _).bind fun args' _ => ?_
    split
    · exact (checkInt_ends _).bind fun _ _ => List.tail_suffix s
    · exact List.tail_suffix s
  · exact List.suffix_refl s

theorem precision_ends {missing : Error} (hmissing : missing ≠ .outOfFuel)
    (s : List Char) (args : List α) :
    (precision w ops missing s args).Ends (fun r => r.2.1 <:+ s)
      (· ≠ .outOfFuel) := by
  rw [precision]
  split
  · exact strtoul_suffix w s
  · split
    · exact hmissing
    · refine (current_ends _ _).bind fun word _ => ?_
      exact (nextArg_ends _).bind fun args' _ => List.tail_suffix s

theorem firstPrecise_ends (min len : Int) (s : List Char) (args : List α) :
    (firstPrecise ops fixed min len s args).Ends (fun _ => True)
      (· ≠ .outOfFuel) := by
  rw [firstPrecise]
  split
  · refine (current_ends _ _).bind fun string _ => ?_
    exact (nextArg_ends _).bind fun _ _ => trivial
  · refine (current_ends _ _).bind fun x _ => ?_
    refine (dummyLength_ends _).bind fun n _ => ?_
    exact (nextArg_ends _).bind fun _ _ => trivial
  · exact fun h => by cases h

theorem firstSimple_ends (min : Int) (s : List Char) (args : List α) :
    (firstSimple ops fixed min s args).Ends (fun _ => True)
      (· ≠ .outOfFuel) := by
  rw [firstSimple]
  split
  case h_1 => exact (nextArg_ends _).bind fun _ _ => trivial
  case h_3 =>
    refine (current_ends _ _).bind fun tmp _ => ?_
    refine (nextArg_ends _).bind fun _ _ => ?_
    split
    · exact (checkInt_ends _).bind fun _ _ => trivial
    · trivial
  case h_8 =>
    refine (current_ends _ _).bind fun x _ => ?_
    refine (dummyLength_ends _).bind fun n _ => ?_
    exact (nextArg_ends _).bind fun _ _ => trivial
  case h_9 => trivial
  case h_10 => exact fun h => by cases h
  all_goals
    refine (current_ends _ _).bind fun n _ => ?_
    exact (nextArg_ends _).bind fun _ _ => trivial

theorem firstDirective_ends (s : List Char) (args : List α) :
    (firstDirective w ops fixed s args).Ends (fun r => r.2.1 <:+ s)
      (· ≠ .outOfFuel) := by
  have hwidth := firstWidth_suffix (w := w) s
  refine (firstStar_ends (firstWidth w s).1 (firstWidth w s).2 args).bind ?_
  intro r hr
  obtain ⟨min, s₁, args₁⟩ := r
  have h₁ : s₁ <:+ s := hr.trans hwidth
  show Except.Ends _ _ (if _ then _ else _)
  split
  · refine (precision_ends (fun h => by cases h) _ _).bind fun r hr => ?_
    obtain ⟨len, s₂, args₂⟩ := r
    have h₂ : s₂ <:+ s := (hr.trans (List.tail_suffix s₁)).trans h₁
    exact (firstPrecise_ends _ _ _ _).bind fun _ _ =>
      (List.tail_suffix s₂).trans h₂
  · exact (firstSimple_ends _ _ _).bind fun _ _ =>
      (List.tail_suffix s₁).trans h₁

theorem firstLoop_ends {fuel : Nat} {s : List Char} (args : List α)
    (total : Int) (hfuel : s.length < fuel) :
    (firstLoop w ops fixed fuel s args total).Ends (fun _ => True)
      (· ≠ .outOfFuel) := by
  induction fuel generalizing s args total with
  | zero => omega
  | succ fuel ih =>
      cases s with
      | nil => trivial
      | cons c s =>
          simp only [List.length_cons] at hfuel
          simp only [firstLoop, overFormat]
          split
          · exact (checkInt_ends _).bind fun _ _ => ih _ _ (by omega)
          · refine Except.Ends.bind (Q := fun r => r.2.1 <:+ s) ?_ ?_
            · refine (firstDirective_ends s args).bind fun r hr => ?_
              exact (checkInt_ends _).bind fun _ _ => hr
            · intro r hr
              exact ih _ _ (Nat.lt_of_le_of_lt hr.length_le (by omega))

/-- The first pass ends with a result or with an error of its own. -/
theorem firstPass_ends (fmt : List Char) (args : List α) :
    firstPass w ops fixed fmt args ≠ .error .outOfFuel := by
  intro h
  exact (firstLoop_ends args 0 (Nat.lt_succ_self _)).of_error h rfl

end

/-! ## Fields of the same width -/

namespace Item

/-- What the first pass takes for the length of a text is not too much. -/
def Counted (item : Item) : Prop :=
  match item.value with
  | .text len text => len ≤ text.length
  | _ => True

/-- Both passes read the same width, apart from its sign. -/
def SameWidth (item : Item) : Prop := item.first.natAbs = item.second.natAbs

/-- No number of the conversion is negative as an `int`, unless it makes no
difference. -/
def Kept (item : Item) : Prop :=
  match item.value with
  | .text len text =>
      (item.first < 0 → item.first.natAbs ≤ text.length) ∧
        (len = text.length ∨ text.length ≤ item.first)
  | _ => True

theorem reserved_le {item : Item} (hcounted : item.Counted)
    (hsame : item.SameWidth) : item.reserved ≤ item.written := by
  obtain ⟨first, second, value⟩ := item
  simp only [SameWidth] at hsame
  cases value with
  | text len text =>
      simp only [Counted] at hcounted
      simp only [reserved, written]
      omega
  | float text =>
      simp only [reserved, written]
      omega
  | percent => exact Int.le_refl _

theorem reserved_eq_iff {item : Item} (hcounted : item.Counted)
    (hsame : item.SameWidth) : item.reserved = item.written ↔ item.Kept := by
  obtain ⟨first, second, value⟩ := item
  simp only [SameWidth] at hsame
  cases value with
  | text len text =>
      simp only [Counted] at hcounted
      simp only [reserved, written, Kept]
      omega
  | float text =>
      simp only [reserved, written, Kept, iff_true]
      omega
  | percent => exact iff_of_true rfl trivial

theorem sum_eq_iff {items : List Item} (hcounted : ∀ item ∈ items, item.Counted)
    (hsame : ∀ item ∈ items, item.SameWidth) :
    (items.map reserved).sum = (items.map fun item => (item.written : Int)).sum ↔
      ∀ item ∈ items, item.Kept := by
  have hle : ∀ items : List Item,
      (∀ item ∈ items, item.reserved ≤ item.written) →
      (items.map reserved).sum ≤
        (items.map fun item => (item.written : Int)).sum := by
    intro items h
    induction items with
    | nil => exact Int.le_refl _
    | cons item items ih =>
        simp only [List.forall_mem_cons] at h
        simp only [List.map_cons, List.sum_cons]
        have hrest := ih h.2
        omega
  induction items with
  | nil => simp
  | cons item items ih =>
      simp only [List.forall_mem_cons] at hcounted hsame
      have hitem := reserved_le hcounted.1 hsame.1
      have hitems := hle items fun i hi =>
        reserved_le (hcounted.2 i hi) (hsame.2 i hi)
      simp only [List.map_cons, List.sum_cons, List.forall_mem_cons]
      have hrest := ih hcounted.2 hsame.2
      rw [← reserved_eq_iff hcounted.1 hsame.1]
      constructor
      · intro hsum
        exact ⟨by omega, hrest.mp (by omega)⟩
      · intro hkept
        have hsum := hrest.mpr hkept.2
        omega

end Item

theorem asInt_le (n : Nat) : asInt n ≤ n := by
  have hmod := Nat.mod_le n (2 ^ 32)
  rw [asInt, BitVec.toInt_ofInt, Int.bmod_def]
  split <;> omega

theorem preciseValue_counted {len : Int} {s : List Char} {args rest : List α}
    {value : Value} (h : preciseValue ops fixed len s args = .ok (value, rest))
    (widths : Int × Int) : Item.Counted ⟨widths.1, widths.2, value⟩ := by
  rw [preciseValue] at h
  split at h
  · obtain ⟨string, -, h⟩ := Except.bind_eq_ok.mp h
    obtain ⟨args₁, -, h⟩ := Except.bind_eq_ok.mp h
    cases h
    have hle := asInt_le string.length
    simp only [Item.Counted, cut, givenPrecision]
    split
    · simp only [Option.map_none, Option.getD_none]
      omega
    · simp only [Option.map_some, Option.getD_some, List.length_take]
      omega
  · obtain ⟨x, -, h⟩ := Except.bind_eq_ok.mp h
    obtain ⟨args₁, -, h⟩ := Except.bind_eq_ok.mp h
    cases h
    trivial

theorem simpleValue_counted {s : List Char} {args rest : List α}
    {value : Value} (h : simpleValue ops fixed s args = .ok (value, rest))
    (widths : Int × Int) : Item.Counted ⟨widths.1, widths.2, value⟩ := by
  have hnumber : ∀ base, numberValue ops base args = .ok (value, rest) →
      Item.Counted ⟨widths.1, widths.2, value⟩ := by
    intro base h
    simp only [numberValue, Except.bind_eq_ok] at h
    obtain ⟨n, -, args₁, -, h⟩ := h
    cases h
    exact Int.le_refl _
  rw [simpleValue] at h
  split at h
  case h_4 | h_5 | h_6 | h_7 => exact hnumber _ h
  case h_10 => cases h
  case h_9 =>
    cases h
    trivial
  all_goals
    simp only [Except.bind_eq_ok] at h
    obtain ⟨x, -, args₁, -, h⟩ := h
    cases h
  · exact Int.le_refl _
  · exact asInt_le _
  · exact Int.le_refl _
  · trivial

/-! ## Numbers that a `long` holds -/

theorem bothWidths_suffix {s rest : List Char} {widths : Int × Int}
    (h : bothWidths w s = .ok (widths, rest)) : rest <:+ s := by
  rw [bothWidths] at h
  split at h
  · cases h
  · cases h
    refine (scanDigits_suffix 10 Char.isDigit _).trans ?_
    split
    · exact List.tail_suffix s
    · exact List.suffix_refl s

theorem bothStars_suffix {s rest : List Char} {widths widths' : Int × Int}
    {args args' : List α}
    (h : bothStars ops widths s args = .ok (widths', rest, args')) :
    rest <:+ s := by
  rw [bothStars] at h
  split at h
  · simp only [Except.bind_eq_ok] at h
    obtain ⟨word, -, args₁, -, h⟩ := h
    cases h
    exact List.tail_suffix s
  · cases h
    exact List.suffix_refl s

theorem natAbs_asInt_neg (n : Int) : (asInt (-n)).natAbs = (asInt n).natAbs := by
  simp only [asInt, BitVec.toInt_ofInt, Int.bmod_def]
  split <;> split <;> omega

/-- Every number that stands in a format fits a `long`. -/
def NumbersFit (fmt : List Char) : Prop :=
  ∀ s, s <:+ fmt → (scanDigits 10 Char.isDigit s).1 < 2 ^ (w - 1)

variable {w} in
theorem bothWidths_same {fmt s rest : List Char} {first second : Int}
    (hfit : NumbersFit w fmt) (hs : s <:+ fmt)
    (h : bothWidths w s = .ok ((first, second), rest)) :
    first.natAbs = second.natAbs := by
  rw [bothWidths] at h
  split at h
  · cases h
  · have hlt : (scanDigits 10 Char.isDigit
        (if isMinus s then s.tail else s)).1 < 2 ^ (w - 1) := by
      split
      · exact hfit _ ((List.tail_suffix s).trans hs)
      · exact hfit _ hs
    generalize scanDigits 10 Char.isDigit
      (if isMinus s then s.tail else s) = scanned at h hlt
    obtain ⟨n, rest'⟩ := scanned
    cases h
    have hpow : 2 ^ (w - 1) ≤ 2 ^ w := Nat.pow_le_pow_right (by decide) (by omega)
    have hulong : toUlong w false n = n := by
      rw [toUlong, if_neg (by omega)]
      rfl
    rw [hulong, toLong]
    cases isMinus s with
    | true => simp only [if_true, if_pos (Nat.le_of_lt hlt), natAbs_asInt_neg]
    | false => simp only [Bool.false_eq_true, if_false, if_pos hlt]

variable {w ops fixed} in
theorem itemDirective_spec {fmt s rest : List Char} {args args' : List α}
    {item : Item} (hs : s <:+ fmt)
    (h : itemDirective w ops fixed s args = .ok (item, rest, args')) :
    rest <:+ fmt ∧ item.Counted ∧ (NumbersFit w fmt → item.SameWidth) := by
  simp only [itemDirective, Except.bind_eq_ok] at h
  obtain ⟨⟨⟨first, second⟩, s₁⟩, hboth, ⟨widths, s₂, args₂⟩, hstars, h⟩ := h
  have h₁ := (bothWidths_suffix w hboth).trans hs
  have h₂ := (bothStars_suffix ops hstars).trans h₁
  have hsame : NumbersFit w fmt → widths.1.natAbs = widths.2.natAbs := by
    intro hfit
    rw [bothStars] at hstars
    split at hstars
    · simp only [Except.bind_eq_ok] at hstars
      obtain ⟨word, -, args₁, -, hstars⟩ := hstars
      cases hstars
      rfl
    · cases hstars
      exact bothWidths_same hfit hs hboth
  simp only at h
  split at h
  · obtain ⟨⟨len, s₃, args₃⟩, hlen, h⟩ := Except.bind_eq_ok.mp h
    obtain ⟨⟨value, args₄⟩, hvalue, h⟩ := Except.bind_eq_ok.mp h
    cases h
    have hsuffix := (precision_ends (fun h => by cases h) _ _).of_ok hlen
    have h₃ := (hsuffix.trans (List.tail_suffix _)).trans h₂
    exact ⟨(List.tail_suffix _).trans h₃,
      preciseValue_counted ops fixed hvalue widths, hsame⟩
  · obtain ⟨⟨value, args₄⟩, hvalue, h⟩ := Except.bind_eq_ok.mp h
    cases h
    exact ⟨(List.tail_suffix _).trans h₂,
      simpleValue_counted ops fixed hvalue widths, hsame⟩

variable {w ops fixed} in
theorem itemLoop_spec {fuel : Nat} {fmt s : List Char} {args rest : List α}
    {items items' : List Item} (hs : s <:+ fmt)
    (hitems : ∀ item ∈ items,
      item.Counted ∧ (NumbersFit w fmt → item.SameWidth))
    (h : itemLoop w ops fixed fuel s args items = .ok (items', rest)) :
    ∀ item ∈ items', item.Counted ∧ (NumbersFit w fmt → item.SameWidth) := by
  induction fuel generalizing s args items with
  | zero => cases h
  | succ fuel ih =>
      cases s with
      | nil =>
          cases h
          exact hitems
      | cons c s =>
          have hnext := (List.suffix_cons c s).trans hs
          simp only [itemLoop, overFormat] at h
          split at h
          · exact ih hnext hitems h
          · obtain ⟨⟨items₁, s₁, args₁⟩, hstep, h⟩ := Except.bind_eq_ok.mp h
            obtain ⟨⟨item, s₂, args₂⟩, hitem, hstep⟩ :=
              Except.bind_eq_ok.mp hstep
            cases hstep
            obtain ⟨hrest, hnew⟩ := itemDirective_spec hnext hitem
            refine ih hrest ?_ h
            intro i hi
            rcases List.mem_append.mp hi with hold | hlast
            · exact hitems i hold
            · rw [List.mem_singleton.mp hlast]
              exact hnew

/-- Every conversion can be written, and keeps its width and its length. -/
def AllKept (fmt : List Char) (args rest : List α) : Prop :=
  ∃ items, itemsOf w ops fixed fmt args = .ok (items, rest) ∧
    ∀ item ∈ items, item.Kept

variable {w ops fixed} in
/-- Where all numbers fit a `long`, the conversions balance one by one. -/
theorem balanced_iff_kept {fmt : List Char} {args rest : List α}
    (hfit : NumbersFit w fmt) :
    Balanced w ops fixed fmt args rest ↔ AllKept w ops fixed fmt args rest := by
  refine exists_congr fun items => and_congr_right fun hitems => ?_
  have hspec := itemLoop_spec (List.suffix_refl fmt)
    (fun item h => absurd h List.not_mem_nil) hitems
  exact Item.sum_eq_iff (fun item h => (hspec item h).1)
    fun item h => (hspec item h).2 hfit

variable {w ops fixed} in
theorem passesAgree_iff_balanced {fmt : List Char} {args rest : List α}
    {total : Int} (h : firstPass w ops fixed fmt args = .ok (total, rest)) :
    PassesAgree w ops fixed fmt args total rest ↔
      Balanced w ops fixed fmt args rest := by
  rcases loop_spec h [] [] with ⟨items, text, hitems, htext, hsum⟩ | ⟨hitems, htext⟩
  · rw [List.nil_append] at hitems htext
    constructor
    · intro hagree
      obtain ⟨text', htext', hlength⟩ := hagree
      cases htext.symm.trans htext'
      refine ⟨items, hitems, ?_⟩
      omega
    · intro hbalanced
      obtain ⟨items', hitems', hsums⟩ := hbalanced
      cases hitems.symm.trans hitems'
      refine ⟨text, htext, ?_⟩
      omega
  · constructor
    · intro hagree
      obtain ⟨text, htext', -⟩ := hagree
      exact absurd htext' (htext _)
    · intro hbalanced
      obtain ⟨items, hitems', -⟩ := hbalanced
      exact absurd hitems' (hitems _)

/-- The second pass of an accepted format ends with what has been reserved
exactly if both passes can read it, and its conversions balance. If all numbers
of the format fit a `long`, they do so one by one. -/
theorem passesAgree_iff (fmt : List Char) (args : List α) {total : Int}
    {rest : List α}
    (h : firstPass w ops fixed fmt args = .ok (total, rest)) :
    (PassesAgree w ops fixed fmt args total rest ↔
        Balanced w ops fixed fmt args rest) ∧
      (NumbersFit w fmt → (PassesAgree w ops fixed fmt args total rest ↔
        AllKept w ops fixed fmt args rest)) :=
  ⟨passesAgree_iff_balanced h,
    fun hfit => (passesAgree_iff_balanced h).trans (balanced_iff_kept hfit)⟩

/-! ## Arguments of type `dt_unum` -/

/-- The text of a whole number for `%f`. -/
def wholeText (precision : Option Nat) (n : Nat) : List Char :=
  match precision.getD 6 with
  | 0 => Nat.toDigits 10 n
  | digits => Nat.toDigits 10 n ++ '.' :: List.replicate digits '0'

def unumOps : Ops (BitVec 32) Nat where
  getSint n := .ok n
  getUint n := .ok n
  getFloat n := .ok n.toNat
  getString _ :=
    .error "invalid type conversion (expected string instead of integer)"

example : sprintfGeneric 64 unumOps wholeText ['%', '5', 'd'] [10] =
    .ok [' ', ' ', ' ', '1', '0'] := by decide

/-- `sprintf("%-5d",10)` -/
theorem passesAgree_iff_leftJustified :
    (PassesAgree 64 unumOps wholeText ['%', '-', '5', 'd'] [10] 5 [] ↔
        Balanced 64 unumOps wholeText ['%', '-', '5', 'd'] [10] []) ∧
      (NumbersFit 64 ['%', '-', '5', 'd'] →
        (PassesAgree 64 unumOps wholeText ['%', '-', '5', 'd'] [10] 5 [] ↔
          AllKept 64 unumOps wholeText ['%', '-', '5', 'd'] [10] [])) :=
  passesAgree_iff 64 unumOps wholeText ['%', '-', '5', 'd'] [10] (by decide)

/-- `sprintf("%-d",10)` aborts although the first pass accepts it. -/
theorem loneMinus_aborts :
    firstPass 64 unumOps wholeText ['%', '-', 'd'] [10] = .ok (2, []) ∧
      secondPass 64 unumOps wholeText ['%', '-', 'd'] [10] = .error .abort ∧
      ¬PassesAgree 64 unumOps wholeText ['%', '-', 'd'] [10] 2 [] := by
  have habort : secondPass 64 unumOps wholeText ['%', '-', 'd'] [10] =
      .error .abort := by decide
  refine ⟨by decide, habort, ?_⟩
  intro h
  obtain ⟨text, htext, -⟩ := h
  cases habort.symm.trans htext

end Tcng.Sprintf
