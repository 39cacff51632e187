import Tcng.Lib.ByteOrder
import Tcng.Lib.U128

/-! The bytes of a packet, as `tcsim/cfg.y` reads them on a little-endian
machine. -/

namespace Tcng.Tcsim

/-- The tokens of `TOK_FORMAT`. -/
inductive Format where
  | b
  | ns
  | hs
  | nl
  | hl
  | ipv4
  | ipv6
  deriving DecidableEq, Repr

def Format.number : Format → Int
  | .b => 8
  | .ns => 16
  | .hs => -16
  | .nl => 32
  | .hl => -32
  | .ipv4 => 32
  | .ipv6 => 128

def optFormat : Option Format → Int
  | none => 0
  | some format => format.number

inductive HexError where
  | u128TooLarge
  | byteTooBig (value : BitVec 32)
  | shortTooBig (value : BitVec 32)
  | longTooBig
  | packetTooBig
  | abort
  deriving DecidableEq, Repr

def maxPacket : Nat := 70000

def u128To32 (a : U128) : Except HexError (BitVec 32) :=
  if a.v1 ≠ 0 ∨ a.v2 ≠ 0 ∨ a.v3 ≠ 0 then .error .u128TooLarge else .ok a.v0

def optRepetition : Option U128 → Except HexError (BitVec 32)
  | none => .ok 1
  | some expression => u128To32 expression

def ntohs (netshort : BitVec 16) : BitVec 16 :=
  netshort <<< 8 ||| netshort >>> 8

def ntohl (netlong : BitVec 32) : BitVec 32 :=
  netlong <<< 24 ||| (netlong &&& 0xff00) <<< 8 |||
    (netlong &&& 0xff0000) >>> 8 ||| netlong >>> 24

/-- `(format < 0 ? -format : format)/8` -/
def elementSize (format : Int) : Nat := format.natAbs / 8

def checkSize (size : Nat) (value : U128) : Except HexError Unit :=
  match size with
  | 1 =>
      if value.is32 ∧ value.v0 ≥ 0x100 then .error (.byteTooBig value.v0)
      else .ok ()
  | 2 =>
      if value.is32 ∧ value.v0 ≥ 0x10000 then .error (.shortTooBig value.v0)
      else .ok ()
  | 4 => if ¬value.is32 then .error .longTooBig else .ok ()
  | _ => .ok ()

def shortBytes (word : BitVec 32) : List (BitVec 8) :=
  [(word >>> 8).setWidth 8, word.setWidth 8]

def longBytes (word : BitVec 32) : List (BitVec 8) :=
  [(word >>> 24).setWidth 8, (word >>> 16).setWidth 8,
    (word >>> 8).setWidth 8, word.setWidth 8]

/-- The cases that do not fall through. -/
def elementBytes (format : Int) (value : U128) : Option (List (BitVec 8)) :=
  match format with
  | -8 | 8 => some [value.v0.setWidth 8]
  | -16 | 16 => some (shortBytes value.v0)
  | -32 | 32 => some (longBytes value.v0)
  | 128 =>
      some (longBytes value.v3 ++ longBytes value.v2 ++ longBytes value.v1 ++
        longBytes value.v0)
  | _ => none

/-- The cases that fall through; they change the value itself. -/
def swapValue (format : Int) (value : U128) : U128 :=
  match format with
  | -16 => { value with v0 := (ntohs (value.v0.setWidth 16)).setWidth 32 }
  | -32 => { value with v0 := ntohl value.v0 }
  | _ => value

/-- The loop. An `int` that counts to `repetition` is compared as an unsigned
number, and the packet is full before it overflows. -/
def appendElements (format : Int) (size : Nat) :
    Nat → U128 → List (BitVec 8) → Except HexError (List (BitVec 8))
  | 0, _, hex => .ok hex
  | repetition + 1, value, hex =>
      if hex.length + size > maxPacket then .error .packetTooBig
      else
        let value := swapValue format value
        match elementBytes format value with
        | some bytes =>
            appendElements format size repetition value (hex ++ bytes)
        | none => .error .abort

/-- `hex` is what has been written to `send_buf` so far. -/
def hexValue (format : Option Format) (expression : U128)
    (repetition : Option U128) (hex : List (BitVec 8)) :
    Except HexError (List (BitVec 8)) := do
  let repetition ← optRepetition repetition
  let format := if optFormat format = 0 then 8 else optFormat format
  let size := elementSize format
  checkSize size expression
  appendElements format size repetition.toNat expression hex

/-! ## What is written -/

/-- The bytes of one element: a number of `size` bytes. -/
structure Encodes (swapped : Bool) (size value : Nat) (bytes : List (BitVec 8)) :
    Prop where
  length : bytes.length = size
  denotes : cond swapped littleEndian bigEndian bytes = value

/-- One encoding is right in both byte orders. -/
def Symmetric (size value : Nat) : Prop :=
  ∃ bytes, Encodes false size value bytes ∧ Encodes true size value bytes

/-- What a `hex_value` asks for: `count` elements of `size` bytes. -/
structure Element where
  swapped : Bool
  size : Nat
  value : Nat
  count : Nat

def Element.ofValue (format : Option Format) (expression : U128)
    (repetition : Option U128) : Element where
  swapped := (format.getD .b).number < 0
  size := elementSize (format.getD .b).number
  value := expression.toNat
  count := repetition.elim 1 U128.toNat

namespace Element

def Fits (e : Element) : Prop := e.value < 256 ^ e.size

def HasRoom (e : Element) (hex : List (BitVec 8)) : Prop :=
  hex.length + e.count * e.size ≤ maxPacket

/-- The reason that an error gives. -/
def Refused (e : Element) (hex : List (BitVec 8)) : HexError → Prop
  | .byteTooBig _ | .shortTooBig _ | .longTooBig => ¬e.Fits
  | .packetTooBig | .u128TooLarge => ¬e.HasRoom hex
  | .abort => False

/-- Identical copies of the element have been appended. -/
def Appended (e : Element) (hex hex' : List (BitVec 8)) : Prop :=
  ∃ copies : List (List (BitVec 8)), copies.length = e.count ∧
    (∀ copy ∈ copies, Encodes e.swapped e.size e.value copy) ∧
    hex' = hex ++ copies.flatten

def Handled (e : Element) (hex : List (BitVec 8)) :
    Except HexError (List (BitVec 8)) → Prop
  | .error error => e.Refused hex error
  | .ok hex' => e.Appended hex hex'

/-- The range check sees the whole value. -/
def Checked (e : Element) : Prop := e.size ≤ 2 → e.value < 2 ^ 32

/-- Swapping the value again for the next copy makes no difference. -/
def SwappedOnce (e : Element) : Prop :=
  e.swapped = true → e.count ≤ 1 ∨ Symmetric e.size e.value

end Element

/-- The copies of an element of which the value itself consists of `bytes`. -/
def elements (swapped : Bool) : Nat → List (BitVec 8) → List (List (BitVec 8))
  | 0, _ => []
  | count + 1, bytes =>
      let bytes := cond swapped bytes.reverse bytes
      bytes :: elements swapped count bytes

/-! ## One element -/

@[simp] theorem length_shortBytes (word : BitVec 32) :
    (shortBytes word).length = 2 := rfl

@[simp] theorem length_longBytes (word : BitVec 32) :
    (longBytes word).length = 4 := rfl

theorem bigEndian_shortBytes (word : BitVec 32) :
    bigEndian (shortBytes word) = word.toNat % 2 ^ 16 := by
  simp [bigEndian, shortBytes, Nat.shiftRight_eq_div_pow]
  omega

theorem bigEndian_longBytes (word : BitVec 32) :
    bigEndian (longBytes word) = word.toNat := by
  have hlt := word.isLt
  simp [bigEndian, longBytes, Nat.shiftRight_eq_div_pow]
  omega

theorem shortBytes_ntohs (word : BitVec 32) :
    shortBytes ((ntohs (word.setWidth 16)).setWidth 32) =
      (shortBytes word).reverse := by
  simp only [shortBytes, List.reverse_cons, List.reverse_nil, List.nil_append,
    List.cons_append, List.cons.injEq, and_true]
  constructor
  all_goals
    ext i hi
    simp [ntohs, BitVec.getLsbD_setWidth]
    grind

theorem longBytes_ntohl (word : BitVec 32) :
    longBytes (ntohl word) = (longBytes word).reverse := by
  simp only [longBytes, List.reverse_cons, List.reverse_nil, List.nil_append,
    List.cons_append, List.cons.injEq, and_true]
  refine ⟨?_, ?_, ?_, ?_⟩
  all_goals
    ext i hi
    interval_cases i <;> simp [ntohl]

/-- A byte-swapped element is written backwards, whatever the value. -/
theorem elementBytes_spec (format : Format) (value : U128) :
    ∃ bytes, elementBytes format.number value = some bytes ∧
      bytes.length = elementSize format.number ∧
      bigEndian bytes = value.toNat % 256 ^ elementSize format.number ∧
      elementBytes format.number (swapValue format.number value) =
        some (cond (format.number < 0) bytes.reverse bytes) := by
  have hlow : value.v0.toNat < 2 ^ 32 := value.v0.isLt
  have hshort : value.v0.toNat % 2 ^ 16 = value.toNat % 256 ^ 2 := by
    rw [U128.toNat]
    omega
  have hlong : value.v0.toNat = value.toNat % 256 ^ 4 := by
    rw [U128.toNat]
    omega
  cases format with
  | b =>
      refine ⟨_, rfl, rfl, ?_, rfl⟩
      simp [bigEndian, U128.toNat, Format.number, elementSize]
      omega
  | ns =>
      refine ⟨shortBytes value.v0, rfl, by simp [Format.number, elementSize],
        ?_, rfl⟩
      exact (bigEndian_shortBytes value.v0).trans hshort
  | hs =>
      refine ⟨shortBytes value.v0, rfl, by simp [Format.number, elementSize],
        ?_, congrArg some (shortBytes_ntohs value.v0)⟩
      exact (bigEndian_shortBytes value.v0).trans hshort
  | nl | ipv4 =>
      refine ⟨longBytes value.v0, rfl, by simp [Format.number, elementSize],
        ?_, rfl⟩
      exact (bigEndian_longBytes value.v0).trans hlong
  | hl =>
      refine ⟨longBytes value.v0, rfl, by simp [Format.number, elementSize],
        ?_, congrArg some (longBytes_ntohl value.v0)⟩
      exact (bigEndian_longBytes value.v0).trans hlong
  | ipv6 =>
      refine ⟨longBytes value.v3 ++ longBytes value.v2 ++ longBytes value.v1 ++
        longBytes value.v0, rfl, by simp [Format.number, elementSize], ?_, rfl⟩
      have hlt := value.toNat_lt
      have hsize : 256 ^ elementSize Format.ipv6.number = 2 ^ 128 := by decide
      rw [hsize, Nat.mod_eq_of_lt hlt]
      simp only [bigEndian_append, bigEndian_longBytes, length_longBytes,
        U128.toNat]
      omega

theorem size_cases (format : Format) :
    elementSize format.number = 1 ∨ elementSize format.number = 2 ∨
      elementSize format.number = 4 ∨ elementSize format.number = 16 := by
  cases format <;> decide

/-! ## The copies -/

theorem mem_elements_length {swapped : Bool} {count : Nat}
    {bytes copy : List (BitVec 8)}
    (h : copy ∈ elements swapped count bytes) : copy.length = bytes.length := by
  induction count generalizing bytes with
  | zero => cases h
  | succ count ih =>
      rcases List.mem_cons.mp h with rfl | hrest
      · cases swapped <;> simp
      · rw [ih hrest]
        cases swapped <;> simp

@[simp] theorem length_elements (swapped : Bool) (count : Nat)
    (bytes : List (BitVec 8)) : (elements swapped count bytes).length = count := by
  induction count generalizing bytes with
  | zero => rfl
  | succ count ih => simp [elements, ih]

theorem forall_elements_plain {P : List (BitVec 8) → Prop} {count : Nat}
    {bytes : List (BitVec 8)} (hcount : 0 < count) :
    (∀ copy ∈ elements false count bytes, P copy) ↔ P bytes := by
  induction count with
  | zero => omega
  | succ count ih =>
      simp only [elements, cond_false, List.forall_mem_cons]
      rcases Nat.eq_zero_or_pos count with rfl | hpos
      · simp [elements]
      · rw [ih hpos, and_self]

/-- Every other copy is written forwards. -/
theorem forall_elements_swapped {P : List (BitVec 8) → Prop} {count : Nat}
    {bytes : List (BitVec 8)} (hcount : 0 < count) :
    (∀ copy ∈ elements true count bytes, P copy) ↔
      P bytes.reverse ∧ (1 < count → P bytes) := by
  induction count generalizing bytes with
  | zero => omega
  | succ count ih =>
      simp only [elements, cond_true, List.forall_mem_cons]
      rcases Nat.eq_zero_or_pos count with rfl | hpos
      · simp [elements]
      · rw [ih hpos, List.reverse_reverse]
        constructor
        · exact fun h => ⟨h.1, fun _ => h.2.1⟩
        · exact fun h => ⟨h.1, h.2 (by omega), fun _ => h.1⟩

/-- One turn of the loop: the bytes written are those of the next value. -/
theorem appendElements_step (format : Format) {value : U128}
    {bytes : List (BitVec 8)} (hex : List (BitVec 8)) (count : Nat)
    (hbytes : elementBytes format.number value = some bytes) :
    ∃ next, elementBytes format.number next =
        some (cond (format.number < 0) bytes.reverse bytes) ∧
      (cond (format.number < 0) bytes.reverse bytes).length =
        elementSize format.number ∧
      appendElements format.number (elementSize format.number) (count + 1)
          value hex =
        if hex.length + elementSize format.number > maxPacket then
          .error .packetTooBig
        else
          appendElements format.number (elementSize format.number) count next
            (hex ++ cond (format.number < 0) bytes.reverse bytes) := by
  obtain ⟨bytes', hbytes', hlength, -, hswap⟩ := elementBytes_spec format value
  cases hbytes.symm.trans hbytes'
  refine ⟨swapValue format.number value, hswap, ?_, ?_⟩
  · cases decide (format.number < 0) <;> simpa using hlength
  · simp only [appendElements, hswap]

/-- What the loop appends depends on the value only through its bytes. -/
theorem appendElements_eq (format : Format) (count : Nat)
    (hex : List (BitVec 8)) {value : U128} {bytes : List (BitVec 8)}
    (hbytes : elementBytes format.number value = some bytes)
    (hroom : count = 0 ∨
      hex.length + count * elementSize format.number ≤ maxPacket) :
    appendElements format.number (elementSize format.number) count value hex =
      .ok (hex ++ (elements (format.number < 0) count bytes).flatten) := by
  induction count generalizing value bytes hex with
  | zero => simp [appendElements, elements]
  | succ count ih =>
      obtain ⟨next, hnext, hlength, hstep⟩ :=
        appendElements_step format hex count hbytes
      have hfit := hroom.resolve_left (by omega)
      rw [Nat.succ_mul] at hfit
      rw [hstep, if_neg (by omega)]
      simp only [elements, List.flatten_cons, ← List.append_assoc]
      apply ih _ hnext
      rw [List.length_append, hlength]
      exact .inr (by omega)

theorem appendElements_full (format : Format) (count : Nat)
    (hex : List (BitVec 8)) {value : U128} {bytes : List (BitVec 8)}
    (hbytes : elementBytes format.number value = some bytes)
    (hcount : 0 < count)
    (hroom : maxPacket < hex.length + count * elementSize format.number) :
    appendElements format.number (elementSize format.number) count value hex =
      .error .packetTooBig := by
  induction count generalizing value bytes hex with
  | zero => omega
  | succ count ih =>
      obtain ⟨next, hnext, hlength, hstep⟩ :=
        appendElements_step format hex count hbytes
      rw [hstep]
      split
      · rfl
      · next hfit =>
        rw [Nat.succ_mul] at hroom
        have hpos : count ≠ 0 := by
          intro hzero
          rw [hzero] at hroom
          omega
        apply ih _ hnext (by omega)
        rw [List.length_append, hlength]
        omega

/-! ## The whole value -/

namespace Element

theorem encodes_fits {swapped : Bool} {size value : Nat}
    {bytes : List (BitVec 8)} (h : Encodes swapped size value bytes) :
    value < 256 ^ size := by
  rw [← h.length, ← h.denotes]
  cases swapped
  · exact bigEndian_lt bytes
  · exact littleEndian_lt bytes

/-- Rows of one length are compared one by one. -/
theorem appended_iff {e : Element} {bytes hex : List (BitVec 8)}
    (hlength : bytes.length = e.size) :
    e.Appended hex (hex ++ (elements e.swapped e.count bytes).flatten) ↔
      ∀ copy ∈ elements e.swapped e.count bytes,
        Encodes e.swapped e.size e.value copy := by
  constructor
  · intro ⟨copies, hcount, hcopies, heq⟩
    have hsame : elements e.swapped e.count bytes = copies := by
      refine rows_inj (by simp [hcount]) (fun copy h => ?_)
        (fun copy h => (hcopies copy h).length) (List.append_cancel_left heq)
      rw [mem_elements_length h, hlength]
    rw [hsame]
    exact hcopies
  · exact fun h => ⟨_, length_elements _ _ _, h, rfl⟩

/-- The copies are right when the value fits, and swapping it again for the
next copy makes no difference. -/
theorem appended_right_iff {e : Element} {bytes hex : List (BitVec 8)}
    (hlength : bytes.length = e.size) (hcount : 0 < e.count)
    (hbytes : bigEndian bytes = e.value % 256 ^ e.size) :
    e.Appended hex (hex ++ (elements e.swapped e.count bytes).flatten) ↔
      e.Fits ∧ e.SwappedOnce := by
  have hfits : Encodes false e.size e.value bytes ↔ e.Fits := by
    constructor
    · exact encodes_fits
    · exact fun h => ⟨hlength, hbytes.trans (Nat.mod_eq_of_lt h)⟩
  rw [appended_iff hlength]
  cases hswapped : e.swapped with
  | false =>
      rw [forall_elements_plain hcount, hfits, SwappedOnce, hswapped]
      simp
  | true =>
      have hreverse : Encodes true e.size e.value bytes.reverse ↔
          Encodes false e.size e.value bytes := by
        constructor
        · intro h
          exact ⟨hlength, h.denotes⟩
        · intro h
          exact ⟨by simpa using hlength, h.denotes⟩
      rw [forall_elements_swapped hcount, hreverse, hfits, SwappedOnce, hswapped]
      refine and_congr_right fun hfit => ?_
      have hright := hfits.mpr hfit
      constructor
      · intro h _
        rcases Nat.lt_or_ge 1 e.count with hmany | hone
        · exact .inr ⟨bytes, hright, h hmany⟩
        · exact .inl hone
      · intro h hmany
        obtain ⟨both, hbig, hlittle⟩ := (h rfl).resolve_left (by omega)
        have hsame : both = bytes :=
          bigEndian_inj (hbig.length.trans hlength.symm)
            (hbig.denotes.trans hright.denotes.symm)
        exact hsame ▸ hlittle

/-- If the packet has room and something is to be written, the value has been
checked and is not swapped again. -/
def Sound (e : Element) (hex : List (BitVec 8)) : Prop :=
  e.HasRoom hex → 0 < e.count → e.Checked ∧ (e.Fits → e.SwappedOnce)

theorem checked_of_fits {e : Element} (h : e.Fits) : e.Checked := by
  intro hsize
  exact Nat.lt_of_lt_of_le h (Nat.pow_le_pow_right (by decide) hsize |>.trans
    (by decide))

end Element

/-- What a comparison with the low word sees of the whole value. -/
theorem narrow_iff {e : Element} {value : U128} (limit : BitVec 32)
    (hvalue : e.value = value.toNat) (hlimit : limit.toNat = 256 ^ e.size) :
    (value.is32 = true ∧ value.v0 ≥ limit) ↔
      value.toNat < 2 ^ 32 ∧ ¬e.Fits := by
  rw [← U128.is32_iff, Element.Fits, hvalue, ← hlimit, not_lt]
  refine and_congr_right fun h => ?_
  rw [U128.toNat_of_is32 h]
  exact BitVec.le_def

/-- The check refuses a value only if it does not fit, and misses one only if
it does not see the whole of it. -/
theorem checkSize_spec (format : Format) (expression : U128)
    (repetition : Option U128) (hex : List (BitVec 8)) :
    let e := Element.ofValue (some format) expression repetition
    (checkSize e.size expression = .ok () ∧ (e.Checked → e.Fits)) ∨
      ∃ error, checkSize e.size expression = .error error ∧
        e.Refused hex error ∧ e.Checked ∧ ¬e.Fits := by
  intro e
  have hsize : e.size = elementSize format.number := rfl
  have hvalue : e.value = expression.toNat := rfl
  rcases size_cases format with h | h | h | h
  all_goals rw [h] at hsize
  · have hnarrow := narrow_iff 0x100 hvalue (by rw [hsize]; rfl)
    rw [hsize]
    simp only [checkSize]
    split
    · next hbig =>
      obtain ⟨hword, hlost⟩ := hnarrow.mp hbig
      exact .inr ⟨_, rfl, hlost, fun _ => hword, hlost⟩
    · next hsmall =>
      refine .inl ⟨rfl, fun hchecked => ?_⟩
      by_contra hlost
      exact hsmall (hnarrow.mpr ⟨hchecked (by omega), hlost⟩)
  · have hnarrow := narrow_iff 0x10000 hvalue (by rw [hsize]; rfl)
    rw [hsize]
    simp only [checkSize]
    split
    · next hbig =>
      obtain ⟨hword, hlost⟩ := hnarrow.mp hbig
      exact .inr ⟨_, rfl, hlost, fun _ => hword, hlost⟩
    · next hsmall =>
      refine .inl ⟨rfl, fun hchecked => ?_⟩
      by_contra hlost
      exact hsmall (hnarrow.mpr ⟨hchecked (by omega), hlost⟩)
  · have hfits : expression.is32 = true ↔ e.Fits := by
      rw [U128.is32_iff, Element.Fits, hsize, hvalue,
        show 256 ^ 4 = 2 ^ 32 by decide]
    rw [hsize]
    simp only [checkSize]
    split
    · next hbig =>
      have hlost : ¬e.Fits := fun hfit => hbig (hfits.mpr hfit)
      refine .inr ⟨_, rfl, hlost, fun hnarrow => ?_, hlost⟩
      omega
    · next hsmall =>
      exact .inl ⟨rfl, fun _ => hfits.mp (not_not.mp hsmall)⟩
  · have hfits : e.Fits := by
      rw [Element.Fits, hsize, hvalue]
      exact expression.toNat_lt
    rw [hsize]
    exact .inl ⟨rfl, fun _ => hfits⟩

theorem optRepetition_spec (repetition : Option U128) :
    (∃ count, optRepetition repetition = .ok count ∧
      count.toNat = repetition.elim 1 U128.toNat) ∨
    optRepetition repetition = .error .u128TooLarge ∧
      2 ^ 32 ≤ repetition.elim 1 U128.toNat := by
  cases repetition with
  | none => exact .inl ⟨1, rfl, rfl⟩
  | some expression =>
      have h32 := expression.is32_iff
      simp only [optRepetition, u128To32, Option.elim_some]
      split
      · next hlarge =>
        refine .inr ⟨rfl, ?_⟩
        by_contra hsmall
        have hzero := h32.mpr (by omega)
        simp only [U128.is32, Bool.and_eq_true, beq_iff_eq] at hzero
        simp [hzero] at hlarge
      · next hsmall =>
        push Not at hsmall
        have hzero : expression.is32 = true := by simp [U128.is32, hsmall]
        exact .inl ⟨_, rfl, (U128.toNat_of_is32 hzero).symm⟩

theorem Element.size_pos (format : Option Format) (expression : U128)
    (repetition : Option U128) :
    0 < (Element.ofValue format expression repetition).size := by
  rcases size_cases (format.getD .b) with h | h | h | h <;>
    simp [Element.ofValue, h]

theorem hexValue_eq (format : Format) (expression : U128)
    (repetition : Option U128) (hex : List (BitVec 8)) :
    hexValue (some format) expression repetition hex = (do
      let count ← optRepetition repetition
      checkSize (elementSize format.number) expression
      appendElements format.number (elementSize format.number) count.toNat
        expression hex) := by
  cases format <;> rfl

/-- The loop alone writes what is asked for, if the value fits. -/
theorem appendElements_handled_iff (format : Format) (expression : U128)
    (repetition : Option U128) (hex : List (BitVec 8)) {e : Element}
    (he : Element.ofValue (some format) expression repetition = e) :
    e.Handled hex
        (appendElements format.number e.size e.count expression hex) ↔
      (e.HasRoom hex → 0 < e.count → e.Fits ∧ e.SwappedOnce) := by
  obtain ⟨bytes, hbytes, hlength, hbig, -⟩ :=
    elementBytes_spec format expression
  have hsize : elementSize format.number = e.size := by rw [← he]; rfl
  have hswapped : decide (format.number < 0) = e.swapped := by rw [← he]; rfl
  have hvalue : expression.toNat = e.value := by rw [← he]; rfl
  have heq := appendElements_eq format e.count hex hbytes
  have hfull := appendElements_full format e.count hex hbytes
  rw [hsize, hvalue] at hbig
  rw [hsize] at hlength heq hfull
  rw [hswapped] at heq
  rcases Nat.eq_zero_or_pos e.count with hzero | hmany
  · rw [heq (.inl hzero)]
    refine ⟨fun _ _ hmany => by omega, fun _ => ⟨[], hzero.symm, ?_, ?_⟩⟩
    · exact fun copy h => by cases h
    · rw [hzero]
      rfl
  · rcases Nat.lt_or_ge maxPacket (hex.length + e.count * e.size)
      with hover | hroom
    · rw [hfull hmany hover]
      have hnone : ¬e.HasRoom hex := Nat.not_le.mpr hover
      exact ⟨fun _ hroom => absurd hroom hnone, fun _ => hnone⟩
    · rw [heq (.inr hroom)]
      refine (Element.appended_right_iff hlength hmany hbig).trans ?_
      exact ⟨fun h _ _ => h, fun h => h hroom hmany⟩

/-- A `hex_value` is refused or written as asked for exactly if it is sound. -/
theorem handled_iff (format : Format) (expression : U128)
    (repetition : Option U128) (hex : List (BitVec 8)) :
    (Element.ofValue (some format) expression repetition).Handled hex
        (hexValue (some format) expression repetition hex) ↔
      (Element.ofValue (some format) expression repetition).Sound hex := by
  have hpos := Element.size_pos (some format) expression repetition
  have hsize := checkSize_spec format expression repetition hex
  rw [hexValue_eq]
  generalize he : Element.ofValue (some format) expression repetition = e
  rw [he] at hpos hsize
  have hsame : elementSize format.number = e.size := by rw [← he]; rfl
  have htimes : repetition.elim 1 U128.toNat = e.count := by rw [← he]; rfl
  rw [hsame]
  rcases optRepetition_spec repetition with ⟨count, hcount, heq⟩ | ⟨hlarge, hmany⟩
  · rw [hcount]
    rcases hsize with ⟨hok, hseen⟩ | ⟨error, herror, hrefused, hchecked, hlost⟩
    · simp only [hok]
      change e.Handled hex
        (appendElements format.number e.size count.toNat expression hex) ↔ _
      rw [heq, htimes]
      refine (appendElements_handled_iff format expression repetition hex
        he).trans ?_
      constructor
      · intro h hroom hsome
        obtain ⟨hfit, honce⟩ := h hroom hsome
        exact ⟨Element.checked_of_fits hfit, fun _ => honce⟩
      · intro h hroom hsome
        obtain ⟨hchecked, honce⟩ := h hroom hsome
        exact ⟨hseen hchecked, honce (hseen hchecked)⟩
    · simp only [herror]
      exact ⟨fun _ _ _ => ⟨hchecked, fun hfit => absurd hfit hlost⟩,
        fun _ => hrefused⟩
  · have hfull : ¬e.HasRoom hex := by
      intro hroom
      have hover := Nat.mul_le_mul (htimes ▸ hmany) hpos
      simp only [Element.HasRoom, maxPacket] at hroom
      omega
    rw [hlarge]
    exact ⟨fun _ hroom => absurd hroom hfull, fun _ => hfull⟩

/-- A `hex_value` that has its place in the packet is refused or written as
asked for exactly when its range is really checked, and copies of a swapped
value do not undo the swap. -/
theorem hexValue_handled_iff (format : Option Format) (expression : U128)
    (repetition : Option U128) (hex : List (BitVec 8)) :
    (Element.ofValue format expression repetition).Handled hex
        (hexValue format expression repetition hex) ↔
      (Element.ofValue format expression repetition).Sound hex := by
  cases format with
  | none => exact handled_iff .b expression repetition hex
  | some format => exact handled_iff format expression repetition hex

example : hexValue (some .hs) (.ofNat 0x0102) (some (.ofNat 2)) [] =
    .ok [2, 1, 1, 2] := by decide

/-- The second copy of a swapped value is swapped back, and a byte may be
given a value of more than 32 bits. -/
theorem twoCopies_notHandled :
    ¬(Element.ofValue (some .hs) (.ofNat 0x0102) (some (.ofNat 2))).Handled []
      (hexValue (some .hs) (.ofNat 0x0102) (some (.ofNat 2)) []) ∧
    ¬(Element.ofValue (some .b) (.ofNat (2 ^ 32)) none).Handled []
      (hexValue (some .b) (.ofNat (2 ^ 32)) none []) := by
  constructor
  · rw [handled_iff]
    intro h
    obtain ⟨-, honce⟩ := h (by unfold Element.HasRoom; decide) (by decide)
    rcases honce (by unfold Element.Fits; decide) rfl with hone | ⟨bytes, hbig, hlittle⟩
    · exact absurd hone (by decide)
    · have hsame : bytes = [0x01, 0x02] :=
        bigEndian_inj hbig.length (hbig.denotes.trans (by decide))
      rw [hsame] at hlittle
      exact absurd hlittle.denotes (by decide)
  · rw [handled_iff]
    intro h
    obtain ⟨hchecked, -⟩ := h (by unfold Element.HasRoom; decide) (by decide)
    exact absurd (hchecked (by decide)) (by decide)

end Tcng.Tcsim
