import Tcng.IfU32.Output
import Tcng.Lib.Ends
import Tcng.Semantics

/-! The keys of a rule match those packets that pass its comparisons. -/

namespace Tcng.IfU32

/-! ## Packets -/

/-- Offsets of bytes are `int`s, and those after the last one start over. -/
def wrapped (packet : Nat → Bool) (i : Nat) : Bool := packet (i % 2 ^ 35)

/-- A bit counted from a byte. -/
def bitAt (packet : Nat → Bool) (offset : BitVec 32) (i : Nat) : Bool :=
  wrapped packet (8 * offset.toNat + i)

theorem bitAt_add (packet : Nat → Bool) (offset : BitVec 32) {n : Nat}
    (hn : n < 2 ^ 32) (i : Nat) :
    bitAt packet (offset + BitVec.ofNat 32 n) i =
      bitAt packet offset (8 * n + i) := by
  have hsum : (offset + BitVec.ofNat 32 n).toNat =
      (offset.toNat + n) % 2 ^ 32 := by
    rw [BitVec.toNat_add, BitVec.toNat_ofNat, Nat.mod_eq_of_lt hn]
  simp only [bitAt, wrapped, hsum]
  congr 1
  omega

/-- What `tc` is told to match. -/
def Match.Holds (packet : Nat → Bool) (m : Match) : Prop :=
  readBits (wrapped packet) (8 * (BitVec.ofInt 32 m.offset).toNat) m.bits &&&
    m.mask.toNat = m.value.toNat

/-- The tests that `dump_match` prints. -/
def printedTests (keys : List Key) : List Match :=
  if keys = [] then [⟨32, 0, 0, 0⟩] else keys.map Key.toMatch

theorem printedTests_hold (packet : Nat → Bool) (keys : List Key) :
    (∀ m ∈ printedTests keys, m.Holds packet) ↔
      ∀ k ∈ keys, k.toMatch.Holds packet := by
  cases keys with
  | nil => simp [printedTests, Match.Holds]
  | cons k keys => simp [printedTests]

/-- Under a mask, bits are compared one by one. -/
theorem readBits_and_eq_iff (bits : Nat → Bool) (start : Nat)
    {length mask value : Nat} (hmask : mask < 2 ^ length)
    (hvalue : ∀ i, value.testBit i = true → mask.testBit i = true) :
    readBits bits start length &&& mask = value ↔
      ∀ i < length, mask.testBit i = true →
        bits (start + (length - 1 - i)) = value.testBit i := by
  constructor
  · intro h i hi hbit
    rw [← h, Nat.testBit_and, testBit_readBits, hbit, decide_eq_true hi,
      Bool.true_and, Bool.and_true]
  · intro h
    apply Nat.eq_of_testBit_eq
    intro i
    rw [Nat.testBit_and, testBit_readBits]
    cases hbit : mask.testBit i with
    | false =>
        have hnone := mt (hvalue i) (Bool.eq_false_iff.mp hbit)
        rw [Bool.and_false, Bool.eq_false_iff.mpr hnone]
    | true =>
        have hi : i < length := by
          by_contra hi
          have hle := Nat.pow_le_pow_right (by decide : 0 < 2)
            (Nat.not_lt.mp hi)
          rw [Nat.testBit_lt_two_pow (Nat.lt_of_lt_of_le hmask hle)] at hbit
          cases hbit
        rw [h i hi hbit, decide_eq_true hi, Bool.true_and, Bool.and_true]

/-! ## Keys -/

namespace Key

/-- What the bits of a key are for. -/
def place (k : Key) : Nat × BitVec 32 × BitVec 32 :=
  (k.bits, k.origOffset, k.offset)

/-- Bit `j` of the word, if the key tests it. -/
def HoldsAt (packet : Nat → Bool) (k : Key) (j : Nat) : Prop :=
  k.mask.getLsbD j = true →
    bitAt packet k.offset (31 - j) = k.value.getLsbD j

/-- The bits of the word from one on. -/
def HoldsFrom (packet : Nat → Bool) (low : Nat × BitVec 32 × BitVec 32 → Nat)
    (k : Key) : Prop := ∀ j, low k.place ≤ j → k.HoldsAt packet j

/-- The piece is in one word; nothing comes before it there. -/
structure Fits (k : Key) : Prop where
  placed : ∃ d, k.origOffset = k.offset + BitVec.ofNat 32 d ∧
    8 * d + k.bits ≤ 32 ∧ ∀ j, k.mask.getLsbD j = true → j + 8 * d < 32
  subset : ∀ j, k.value.getLsbD j = true → k.mask.getLsbD j = true

variable {k new : Key} {packet : Nat → Bool}

/-- The bits below are not printed. -/
def lowPrinted (place : Nat × BitVec 32 × BitVec 32) : Nat :=
  32 - place.1 - (place.2.1 - place.2.2).toNat * 8

/-- What is printed of a key are its upper bits. -/
theorem Fits.holds_iff (h : k.Fits) :
    k.toMatch.Holds packet ↔ k.HoldsFrom packet lowPrinted := by
  obtain ⟨d, horig, hfit, hlow⟩ := h.placed
  have hd : (k.origOffset - k.offset).toNat = d := by
    rw [horig, BitVec.add_comm, BitVec.add_sub_cancel,
      BitVec.toNat_ofNat]
    exact Nat.mod_eq_of_lt (by omega)
  have hplace : lowPrinted k.place = 32 - k.bits - d * 8 := by
    rw [lowPrinted, place, hd]
  have hmask : (k.mask >>> (32 - k.bits - d * 8)).toNat < 2 ^ k.bits := by
    apply Nat.lt_pow_two_of_testBit
    intro i hi
    rw [BitVec.testBit_toNat, BitVec.getLsbD_ushiftRight]
    exact Bool.eq_false_iff.mpr fun hbit => by
      have := hlow _ hbit
      omega
  have hvalue : ∀ i,
      (k.value >>> (32 - k.bits - d * 8)).toNat.testBit i = true →
        (k.mask >>> (32 - k.bits - d * 8)).toNat.testBit i = true := by
    intro i
    rw [BitVec.testBit_toNat, BitVec.testBit_toNat, BitVec.getLsbD_ushiftRight,
      BitVec.getLsbD_ushiftRight]
    exact h.subset _
  simp only [Match.Holds, toMatch, hd, BitVec.ofInt_toInt]
  rw [readBits_and_eq_iff _ _ hmask hvalue]
  have hbit : ∀ i < k.bits,
      wrapped packet (8 * k.origOffset.toNat + (k.bits - 1 - i)) =
        bitAt packet k.offset (31 - (32 - k.bits - d * 8 + i)) := by
    intro i hi
    have hmove := bitAt_add packet k.offset (n := d) (by omega)
      (k.bits - 1 - i)
    rw [← horig] at hmove
    rw [← bitAt, hmove]
    congr 1
    omega
  simp only [HoldsFrom, HoldsAt, hplace, BitVec.testBit_toNat,
    BitVec.getLsbD_ushiftRight]
  constructor
  · intro hall j hj hm
    have hlt := hlow j hm
    obtain ⟨i, rfl⟩ := Nat.exists_eq_add_of_le hj
    rw [← hall i (by omega) hm, hbit i (by omega)]
  · intro hall i hi hm
    rw [hbit i hi]
    exact hall _ (Nat.le_add_right _ _) hm

/-- Bits of the packet that two keys test are the same for both. -/
theorem conflict (hoffset : k.offset = new.offset)
    (h : (k.value ^^^ new.value) &&& k.mask &&& new.mask ≠ 0)
    (hk : ∀ j, k.HoldsAt packet j) (hnew : ∀ j, new.HoldsAt packet j) :
    False := by
  apply h
  apply BitVec.eq_of_getLsbD_eq
  intro j _
  rw [BitVec.getLsbD_and, BitVec.getLsbD_and, BitVec.getLsbD_xor]
  show _ = (0#32).getLsbD j
  rw [BitVec.getLsbD_zero]
  cases hm : k.mask.getLsbD j with
  | false => rw [Bool.and_false, Bool.false_and]
  | true =>
      cases hm' : new.mask.getLsbD j with
      | false => rw [Bool.and_false]
      | true =>
          rw [← hk j hm, ← hnew j hm', hoffset, Bool.xor_self]
          rfl

/-- `k` together with `new` -/
def merge (k new : Key) : Key :=
  { k with value := k.value ||| new.value, mask := k.mask ||| new.mask }

theorem Fits.merge (hk : k.Fits) (hnew : new.Fits)
    (hplace : k.place = new.place) : (k.merge new).Fits := by
  obtain ⟨d, horig, hfit, hlow⟩ := hk.placed
  obtain ⟨d', horig', hfit', hlow'⟩ := hnew.placed
  simp only [place, Prod.mk.injEq] at hplace
  obtain ⟨hbits, ho, hoff⟩ := hplace
  have hd : d = d' := by
    have hsame : BitVec.ofNat 32 d = BitVec.ofNat 32 d' := by
      rw [← BitVec.add_right_inj k.offset, ← horig, ho, horig', hoff]
    have hnat := congrArg BitVec.toNat hsame
    rw [BitVec.toNat_ofNat, BitVec.toNat_ofNat] at hnat
    omega
  subst hd
  refine ⟨⟨d, horig, hfit, fun j hj => ?_⟩, fun j hj => ?_⟩
  · rw [Key.merge, BitVec.getLsbD_or, Bool.or_eq_true] at hj
    exact hj.elim (hlow j) (hlow' j)
  · rw [Key.merge, BitVec.getLsbD_or, Bool.or_eq_true] at hj ⊢
    exact hj.imp (hk.subset j) (hnew.subset j)

theorem holdsAt_merge (hk : k.Fits) (hnew : new.Fits)
    (hoffset : k.offset = new.offset)
    (h : (k.value ^^^ new.value) &&& k.mask &&& new.mask = 0) (j : Nat) :
    (k.merge new).HoldsAt packet j ↔
      k.HoldsAt packet j ∧ new.HoldsAt packet j := by
  have hagree : k.mask.getLsbD j = true → new.mask.getLsbD j = true →
      k.value.getLsbD j = new.value.getLsbD j := by
    intro hm hm'
    have hbit := congrArg (·.getLsbD j) h
    simpa [hm, hm'] using hbit
  have hsub := hk.subset j
  have hsub' := hnew.subset j
  simp only [HoldsAt, merge, BitVec.getLsbD_or, ← hoffset]
  cases hm : k.mask.getLsbD j <;> cases hm' : new.mask.getLsbD j <;>
    simp_all

end Key

/-- The bits of all keys from some bit of each on. -/
def KeysHold (packet : Nat → Bool)
    (low : Nat × BitVec 32 × BitVec 32 → Nat) (keys : List Key) : Prop :=
  ∀ k ∈ keys, k.HoldsFrom packet low

/-- A key is stored unless no packet has the bits of all. -/
theorem storeKey_spec {new : Key} (hnew : new.Fits) {keys : List Key}
    (hkeys : ∀ k ∈ keys, k.Fits) :
    ((storeKey new keys).1 = false → ∀ packet,
      KeysHold packet (fun _ => 0) keys →
        ¬new.HoldsFrom packet fun _ => 0) ∧
    ((storeKey new keys).1 = true →
      (∀ k ∈ (storeKey new keys).2, k.Fits) ∧ ∀ packet low,
        (KeysHold packet low (storeKey new keys).2 ↔
          KeysHold packet low keys ∧ new.HoldsFrom packet low)) := by
  induction keys with
  | nil =>
      refine ⟨fun h => (by cases h), fun _ => ?_⟩
      simp [storeKey, KeysHold, hnew]
  | cons k keys ih =>
      obtain ⟨hk, hkeys⟩ := List.forall_mem_cons.mp hkeys
      unfold storeKey
      split
      case isTrue hconflict =>
        refine ⟨fun _ packet hall hholds => ?_, fun h => (by cases h)⟩
        have hfirst := hall k List.mem_cons_self
        exact Key.conflict hconflict.1 hconflict.2
          (fun j => hfirst j (Nat.zero_le j))
          (fun j => hholds j (Nat.zero_le j))
      case isFalse hagree =>
        split
        case isTrue hsame =>
          obtain ⟨hoffset, hbits, horig⟩ := hsame
          have hplace : k.place = new.place := by
            rw [Key.place, Key.place, hoffset, hbits, horig]
          have hzero : (k.value ^^^ new.value) &&& k.mask &&& new.mask = 0 :=
            Decidable.not_not.mp fun h => hagree ⟨hoffset, h⟩
          refine ⟨fun h => (by cases h), fun _ => ⟨?_, fun packet low => ?_⟩⟩
          · exact List.forall_mem_cons.mpr ⟨hk.merge hnew hplace, hkeys⟩
          · have hmerge : (k.merge new).HoldsFrom packet low ↔
                k.HoldsFrom packet low ∧ new.HoldsFrom packet low := by
              have hfrom : (k.merge new).place = new.place := hplace
              simp only [Key.HoldsFrom, hfrom, hplace,
                Key.holdsAt_merge hk hnew hoffset hzero]
              exact forall₂_and
            simp only [KeysHold, List.forall_mem_cons]
            rw [show ({ k with
              value := k.value ||| new.value,
              mask := k.mask ||| new.mask } : Key) = k.merge new from rfl,
              hmerge]
            tauto
        case isFalse =>
          obtain ⟨hfalse, htrue⟩ := ih hkeys
          refine ⟨fun h packet hall => ?_, fun h => ⟨?_, fun packet low => ?_⟩⟩
          · exact hfalse h packet (List.forall_mem_cons.mp hall).2
          · exact List.forall_mem_cons.mpr ⟨hk, (htrue h).1⟩
          · have hrest := (htrue h).2 packet low
            simp only [KeysHold, List.forall_mem_cons] at hrest ⊢
            rw [hrest, and_assoc]

/-! ## Comparisons -/

def tooManyKeys : Error :=
  .error ("too many u32 keys (max " ++ toString maxU32Keys ++ ")")

/-- The widths of the pieces. -/
def Piece (bits : Nat) : Prop := bits = 8 ∨ bits = 16 ∨ bits = 32

theorem alignKey_spec {bits : Nat} (hbits : Piece bits)
    (value mask offset : BitVec 32) :
    ∃ d, 8 * d + bits ≤ 32 ∧ alignKey bits value mask offset =
      ⟨bits, offset, offset - BitVec.ofNat 32 d, value >>> (8 * d),
        mask >>> (8 * d)⟩ := by
  have htwice (x : BitVec 32) : x >>> 8 >>> 16 = x >>> 24 :=
    (BitVec.shiftRight_add x 8 16).symm
  have hback : offset - 1 - 2 = offset - 3 := by
    rw [BitVec.sub_sub]
    rfl
  have hzero : offset = offset - BitVec.ofNat 32 0 := (BitVec.sub_zero _).symm
  have hnarrow : ¬(16 : Nat) = 8 := by decide
  rcases hbits with rfl | rfl | rfl
  · by_cases hodd : offset &&& 1 ≠ 0
    · by_cases hhalf : (offset - 1) &&& 2 ≠ 0
      · refine ⟨3, by decide, ?_⟩
        simp only [alignKey, hodd, hhalf, and_self, true_or, ne_eq,
          not_false_eq_true, if_true, htwice, hback]
        rfl
      · refine ⟨1, by decide, ?_⟩
        simp only [alignKey, hodd, hhalf, and_self, and_false, true_or, ne_eq,
          not_false_eq_true, if_true, if_false]
        rfl
    · by_cases hhalf : offset &&& 2 ≠ 0
      · refine ⟨2, by decide, ?_⟩
        simp only [alignKey, hodd, hhalf, and_self, and_false, true_or, ne_eq,
          not_false_eq_true, if_true, if_false]
        rfl
      · refine ⟨0, by decide, ?_⟩
        simp only [alignKey, hodd, hhalf, and_false, if_false, ← hzero]
        rfl
  · by_cases hhalf : offset &&& 2 ≠ 0
    · refine ⟨2, by decide, ?_⟩
      simp only [alignKey, hhalf, hnarrow, false_and, or_true, and_self, ne_eq,
        not_false_eq_true, if_true, if_false]
      rfl
    · refine ⟨0, by decide, ?_⟩
      simp only [alignKey, hhalf, hnarrow, false_and, and_false, if_false,
        ← hzero]
      rfl
  · exact ⟨0, by decide, by simp [alignKey]⟩

namespace Comparison

/-- Bit `i` of what is left, if it is compared. -/
def HoldsBit (packet : Nat → Bool) (c : Comparison) (i : Nat) : Prop :=
  c.mask.bit (127 - i) = true →
    bitAt packet c.offset i = c.value.bit (127 - i)

/-- What is left holds. -/
def Rest (packet : Nat → Bool) (c : Comparison) : Prop :=
  ∀ i < 128, c.HoldsBit packet i

/-- What is left is at the upper end. -/
structure Fits (c : Comparison) : Prop where
  subset : ∀ i, c.value.bit i = true → c.mask.bit i = true
  bytes : ∀ i, c.mask.bit i = true → 128 ≤ i + 8 * c.bytes

end Comparison

theorem getLsbD_v3 (a : U128) {i : Nat} (hi : i < 32) :
    a.v3.getLsbD i = a.bit (96 + i) := by
  have hword : (96 + i) / 32 = 3 := by omega
  have hbit : (96 + i) % 32 = i := by omega
  rw [U128.bit, hword, hbit, U128.word]

section

variable {c : Comparison} {bits : Nat} {packet : Nat → Bool}

/-- The first bits that are left, as a key. -/
def firstKey (bits : Nat) (c : Comparison) : Key :=
  alignKey bits c.value.v3 c.mask.v3 c.offset

theorem firstKey_spec (hbits : Piece bits) (hc : c.Fits) :
    (firstKey bits c).Fits ∧
      ((firstKey bits c).HoldsFrom packet Key.lowPrinted ↔
        ∀ i < bits, c.HoldsBit packet i) ∧
      (c.Rest packet → (firstKey bits c).HoldsFrom packet fun _ => 0) := by
  obtain ⟨d, hfit, hkey⟩ := alignKey_spec hbits c.value.v3 c.mask.v3 c.offset
  have hbits0 : 0 < bits := by
    rcases hbits with rfl | rfl | rfl <;> decide
  have hback : c.offset = c.offset - BitVec.ofNat 32 d + BitVec.ofNat 32 d :=
    (BitVec.sub_add_cancel _ _).symm
  have hshift (a : U128) (j : Nat) : (a.v3 >>> (8 * d)).getLsbD j =
      (decide (j + 8 * d < 32) && a.bit (96 + (j + 8 * d))) := by
    rw [BitVec.getLsbD_ushiftRight, Nat.add_comm (8 * d)]
    cases hj : decide (j + 8 * d < 32) with
    | true =>
        rw [getLsbD_v3 _ (of_decide_eq_true hj), Bool.true_and]
    | false =>
        exact BitVec.getLsbD_of_ge _ _
          (Nat.not_lt.mp (of_decide_eq_false hj))
  have hat (j : Nat) : (firstKey bits c).HoldsAt packet j ↔
      (j + 8 * d < 32 → c.HoldsBit packet (31 - (j + 8 * d))) := by
    rw [firstKey, hkey]
    simp only [Key.HoldsAt, hshift, Bool.and_eq_true, decide_eq_true_eq,
      Comparison.HoldsBit, and_imp]
    refine forall_congr' fun hj => ?_
    have hindex : 127 - (31 - (j + 8 * d)) = 96 + (j + 8 * d) := by omega
    have hmove := bitAt_add packet (c.offset - BitVec.ofNat 32 d) (n := d)
      (by omega) (31 - (j + 8 * d))
    rw [← hback] at hmove
    have hbit : 8 * d + (31 - (j + 8 * d)) = 31 - j := by omega
    rw [hindex, hmove, hbit, decide_eq_true hj, Bool.true_and]
  have hlow : Key.lowPrinted (firstKey bits c).place = 32 - bits - d * 8 := by
    have hd : (c.offset - (c.offset - BitVec.ofNat 32 d)).toNat = d := by
      have hdiff : c.offset - (c.offset - BitVec.ofNat 32 d) =
          BitVec.ofNat 32 d := by
        rw [BitVec.sub_eq_iff_eq_add, BitVec.add_comm]
        exact hback
      rw [hdiff, BitVec.toNat_ofNat]
      exact Nat.mod_eq_of_lt (by omega)
    rw [firstKey, hkey, Key.place, Key.lowPrinted]
    dsimp only
    rw [hd]
  refine ⟨⟨⟨d, ?_, ?_, fun j hj => ?_⟩, fun j hj => ?_⟩, ?_, ?_⟩
  · rw [firstKey, hkey]
    exact hback
  · rw [firstKey, hkey]
    exact hfit
  · rw [firstKey, hkey, hshift, Bool.and_eq_true, decide_eq_true_eq] at hj
    exact hj.1
  · rw [firstKey, hkey] at hj ⊢
    rw [hshift, Bool.and_eq_true] at hj ⊢
    exact ⟨hj.1, hc.subset _ hj.2⟩
  · simp only [Key.HoldsFrom, hlow, hat]
    constructor
    · intro h i hi
      have := h (31 - i - 8 * d) (by omega) (by omega)
      rwa [show 31 - (31 - i - 8 * d + 8 * d) = i by omega] at this
    · exact fun h j hj hlt => h _ (by omega)
  · exact fun h j _ => (hat j).mpr fun hlt => h _ (by omega)

/-- What is left after the first bits. -/
def Comparison.next (bits : Nat) (c : Comparison) (keys : List Key)
    (useful : Bool) : Comparison :=
  ⟨c.value.shiftLeft (.ofNat 32 bits), c.mask.shiftLeft (.ofNat 32 bits),
    c.offset + .ofNat 32 (bits / 8), c.bytes - bits / 8, keys, useful⟩

theorem Comparison.Fits.next (hc : c.Fits) (hbits : Piece bits)
    (hbytes : bits / 8 ≤ c.bytes) (keys : List Key) (useful : Bool) :
    (c.next bits keys useful).Fits := by
  have hn : (BitVec.ofNat 32 bits).toNat = bits ∧ 8 * (bits / 8) = bits := by
    rcases hbits with rfl | rfl | rfl <;> exact ⟨rfl, rfl⟩
  refine ⟨fun i hi => ?_, fun i hi => ?_⟩
  · simp only [Comparison.next, U128.bit_shiftLeft, Bool.and_eq_true] at hi ⊢
    exact ⟨hi.1, hc.subset _ hi.2⟩
  · simp only [Comparison.next, U128.bit_shiftLeft, Bool.and_eq_true,
      decide_eq_true_eq, hn.1] at hi ⊢
    have := hc.bytes _ hi.2
    omega

theorem Comparison.rest_iff (hbits : Piece bits) (keys : List Key)
    (useful : Bool) :
    c.Rest packet ↔ (∀ i < bits, c.HoldsBit packet i) ∧
      (c.next bits keys useful).Rest packet := by
  have hn : (BitVec.ofNat 32 bits).toNat = bits ∧ 8 * (bits / 8) = bits ∧
      bits ≤ 32 := by
    rcases hbits with rfl | rfl | rfl <;> exact ⟨rfl, rfl, by decide⟩
  have hnext : ∀ i < 128, (c.next bits keys useful).HoldsBit packet i ↔
      (bits + i < 128 → c.HoldsBit packet (bits + i)) := by
    intro i hi
    have hmove := bitAt_add packet c.offset (n := bits / 8) (by omega) i
    have hindex : 127 - i - bits = 127 - (bits + i) := by omega
    have hlt : 127 - i < 128 ∧ bits ≤ 127 - i ↔ bits + i < 128 := by omega
    simp only [HoldsBit, next, U128.bit_shiftLeft, hn.1, hmove, hn.2.1,
      hindex, hlt, Bool.and_eq_true, decide_eq_true_eq, and_imp]
    refine forall_congr' fun hlt => ?_
    rw [decide_eq_true hlt, Bool.true_and]
  constructor
  · exact fun h => ⟨fun i hi => h i (by omega), fun i hi =>
      (hnext i hi).mpr fun hlt => h _ hlt⟩
  · intro ⟨hfirst, hrest⟩ i hi
    by_cases hlow : i < bits
    · exact hfirst i hlow
    · have := (hnext (i - bits) (by omega)).mp (hrest _ (by omega)) (by omega)
      rwa [Nat.add_sub_cancel' (Nat.not_lt.mp hlow)] at this

end

/-- Part of a test is in the keys, which had been `keys` before. -/
structure Comparison.Sound (keys : List Key)
    (test : (Nat → Bool) → Prop) (c : Comparison) : Prop where
  fits : c.Fits
  keysFit : c.useful = true → ∀ k ∈ c.keys, k.Fits
  matched : c.useful = true → ∀ packet,
    KeysHold packet Key.lowPrinted c.keys ∧ c.Rest packet ↔
      KeysHold packet Key.lowPrinted keys ∧ test packet
  words : c.useful = true → ∀ packet,
    KeysHold packet Key.lowPrinted c.keys → c.Rest packet →
      KeysHold packet (fun _ => 0) c.keys
  useless : c.useful = false → ∀ packet,
    KeysHold packet Key.lowPrinted keys → ¬test packet

section

variable {keys : List Key} {test : (Nat → Bool) → Prop} {c : Comparison}
  {bits : Nat}

theorem Comparison.Sound.next (h : c.Sound keys test) (hbits : Piece bits)
    (hbytes : bits / 8 ≤ c.bytes) :
    (c.next bits (storeKey (firstKey bits c) c.keys).2
      (c.useful && (storeKey (firstKey bits c) c.keys).1)).Sound keys test := by
  cases huseful : c.useful with
  | false =>
      exact ⟨h.fits.next hbits hbytes _ _, fun hu => (by cases hu),
        fun hu => (by cases hu), fun hu => (by cases hu),
        fun _ => h.useless huseful⟩
  | true =>
      have hfirst (packet : Nat → Bool) :=
        @firstKey_spec c bits packet hbits h.fits
      obtain ⟨hfalse, htrue⟩ := storeKey_spec (hfirst fun _ => false).1
        (h.keysFit huseful)
      have hmatched := h.matched huseful
      have hwords := h.words huseful
      refine ⟨h.fits.next hbits hbytes _ _, fun hu => (htrue hu).1,
        fun hu packet => ?_, fun hu packet hkeys hrest => ?_,
        fun hu packet hkeys htest => ?_⟩
      · rw [← hmatched, c.rest_iff hbits _ _, ← (hfirst packet).2.1, ← and_assoc,
          ← (htrue hu).2]
        rfl
      · have hprinted := ((htrue hu).2 packet Key.lowPrinted).mp hkeys
        have hall : c.Rest packet := (c.rest_iff hbits _ _).mpr
          ⟨(hfirst packet).2.1.mp hprinted.2, hrest⟩
        exact ((htrue hu).2 packet _).mpr
          ⟨hwords packet hprinted.1 hall, (hfirst packet).2.2 hall⟩
      · obtain ⟨hprinted, hall⟩ := (hmatched packet).mpr ⟨hkeys, htest⟩
        exact hfalse hu packet (hwords packet hprinted hall)
          ((hfirst packet).2.2 hall)

end

/-! The pieces are chosen by what is left and where it starts in a word. -/

def Comparison.place (c : Comparison) : Nat × Nat :=
  (c.bytes, c.offset.toNat % 4)

/-- `tc_match` -/
def advance (bits : Nat) (place : Nat × Nat) : Nat × Nat :=
  if place.1 < bits / 8 ∨ place.2 % (bits / 8) ≠ 0 then place
  else (place.1 - bits / 8, (place.2 + bits / 8) % 4)

/-- The loops over whole words. -/
def advanceWords : Nat → Nat × Nat → Nat × Nat
  | 0, place => place
  | left + 1, place =>
      if place.1 > 3 ∧ place.2 = 0 then advanceWords left (advance 32 place)
      else place

def advanceAll (place : Nat × Nat) : Nat × Nat :=
  let place := advanceWords place.1 place
  let place := advance 16 place
  let place := advanceWords place.1 place
  let place := advance 16 place
  let place := advance 8 place
  let place := advanceWords place.1 place
  let place := advance 16 place
  let place := advanceWords place.1 place
  advance 8 place

theorem aligned_iff {bits : Nat} (hbits : Piece bits) (offset : BitVec 32) :
    offset &&& (BitVec.ofNat 32 (bits / 8) - 1) = 0 ↔
      offset.toNat % 4 % (bits / 8) = 0 := by
  have hmask : ∃ k, (BitVec.ofNat 32 (bits / 8) - 1).toNat = 2 ^ k - 1 ∧
      bits / 8 = 2 ^ k ∧ 2 ^ k ∣ 4 := by
    rcases hbits with rfl | rfl | rfl
    · exact ⟨0, rfl, rfl, by decide⟩
    · exact ⟨1, rfl, rfl, by decide⟩
    · exact ⟨2, rfl, rfl, by decide⟩
  obtain ⟨k, hk, hsize, hdvd⟩ := hmask
  rw [← BitVec.toNat_inj, BitVec.toNat_and, hk,
    Nat.and_two_pow_sub_one_eq_mod, hsize, Nat.mod_mod_of_dvd _ hdvd]
  rfl

section

variable {keys : List Key} {test : (Nat → Bool) → Prop} {c : Comparison}
  {bits : Nat}

/-- After some pieces. -/
def Reached (keys : List Key) (test : (Nat → Bool) → Prop)
    (place : Nat × Nat) (c : Comparison) : Prop :=
  c.Sound keys test ∧ c.place = place

theorem tcMatch_reached (hbits : Piece bits) (h : c.Sound keys test) :
    (tcMatch bits c).Ends (Reached keys test (advance bits c.place))
      (· = tooManyKeys) := by
  have halign := aligned_iff hbits c.offset
  by_cases hstop : c.bytes < bits / 8 ∨
      c.offset &&& (BitVec.ofNat 32 (bits / 8) - 1) ≠ 0
  · have hplace : advance bits c.place = c.place := if_pos (by
      rwa [Comparison.place, ne_eq, ← halign])
    rw [tcMatch, if_pos hstop, hplace]
    exact ⟨h, rfl⟩
  · have hplace : advance bits c.place =
        (c.bytes - bits / 8, (c.offset.toNat % 4 + bits / 8) % 4) := if_neg (by
      rwa [Comparison.place, ne_eq, ← halign])
    rw [tcMatch, if_neg hstop, addKey]
    split
    · exact rfl
    · refine ⟨h.next hbits (Nat.not_lt.mp fun hlt => hstop (.inl hlt)), ?_⟩
      have hsize : bits / 8 ≤ 4 := by
        rcases hbits with rfl | rfl | rfl <;> decide
      rw [hplace, Comparison.place, BitVec.toNat_add, BitVec.toNat_ofNat]
      simp only [Prod.mk.injEq, true_and]
      omega

theorem tcMatchWords_reached (left : Nat) (h : c.Sound keys test) :
    (tcMatchWords left c).Ends (Reached keys test (advanceWords left c.place))
      (· = tooManyKeys) := by
  induction left generalizing c with
  | zero => exact ⟨h, rfl⟩
  | succ left ih =>
      have halign := aligned_iff (.inr (.inr rfl)) c.offset
      have hword : c.bytes > 3 ∧ c.offset &&& 3 = 0 ↔
          c.place.1 > 3 ∧ c.place.2 = 0 := by
        refine and_congr_right fun _ => ?_
        rw [Comparison.place, ← Nat.mod_mod c.offset.toNat 4]
        exact halign
      rw [tcMatchWords, advanceWords]
      by_cases hgo : c.place.1 > 3 ∧ c.place.2 = 0
      · rw [if_pos (hword.mpr hgo), if_pos hgo]
        refine (tcMatch_reached (.inr (.inr rfl)) h).bind fun c' hc' => ?_
        rw [← hc'.2]
        exact ih hc'.1
      · rw [if_neg (mt hword.mp hgo), if_neg hgo]
        exact ⟨h, rfl⟩

theorem tcMatchAll_reached (h : c.Sound keys test) :
    (tcMatchAll c).Ends (Reached keys test (advanceAll c.place))
      (· = tooManyKeys) := by
  have word {place : Nat × Nat} {c : Comparison}
      (hc : Reached keys test place c) : (tcMatchWords c.bytes c).Ends
        (Reached keys test (advanceWords place.1 place)) (· = tooManyKeys) := by
    obtain ⟨hc, rfl⟩ := hc
    exact tcMatchWords_reached _ hc
  have piece {bits : Nat} (hbits : Piece bits) {place : Nat × Nat}
      {c : Comparison} (hc : Reached keys test place c) : (tcMatch bits c).Ends
        (Reached keys test (advance bits place)) (· = tooManyKeys) := by
    obtain ⟨hc, rfl⟩ := hc
    exact tcMatch_reached hbits hc
  refine (word ⟨h, rfl⟩).bind fun c hc => ?_
  refine (piece (.inr (.inl rfl)) hc).bind fun c hc => ?_
  refine (word hc).bind fun c hc => ?_
  refine (piece (.inr (.inl rfl)) hc).bind fun c hc => ?_
  refine (piece (.inl rfl) hc).bind fun c hc => ?_
  refine (word hc).bind fun c hc => ?_
  refine (piece (.inr (.inl rfl)) hc).bind fun c hc => ?_
  refine (word hc).bind fun c hc => ?_
  exact piece (.inl rfl) hc

end

/-- The lengths of accesses. -/
def AccessBits (bits : BitVec 32) : Prop :=
  bits = 8 ∨ bits = 16 ∨ bits = 32 ∨ bits = 128

/-- Nothing is left, wherever the access starts. -/
theorem advanceAll_bytes {bits : BitVec 32} (hbits : AccessBits bits)
    (offset : BitVec 32) :
    (advanceAll (bits.toNat / 8, offset.toNat % 4)).1 = 0 := by
  have hall : ∀ n ∈ [1, 2, 4, 16], ∀ r < 4, (advanceAll (n, r)).1 = 0 := by
    decide
  have hr := Nat.mod_lt offset.toNat (by decide : 0 < 4)
  rcases hbits with rfl | rfl | rfl | rfl
  · exact hall 1 (by decide) _ hr
  · exact hall 2 (by decide) _ hr
  · exact hall 4 (by decide) _ hr
  · exact hall 16 (by decide) _ hr

/-! ## Tests -/

/-- An access under constant masks, and what they leave of its bits. -/
inductive MaskedAccess (root : Data) (offset bits : BitVec 32) :
    Nat → Data → Prop
  | access (t : DataType) :
      MaskedAccess root offset bits (2 ^ bits.toNat - 1)
        (.op .access t root (.unum offset) (.unum bits))
  | andLeft {mask : Nat} {m d : Data} (t : DataType) (c : Data)
      (hm : m.isConstant = true) (hd : MaskedAccess root offset bits mask d) :
      MaskedAccess root offset bits (mask &&& m.convertIpv6.toNat)
        (.op .and t m d c)
  | andRight {mask : Nat} {m d : Data} (t : DataType) (c : Data)
      (hm : m.isConstant = true) (hd : MaskedAccess root offset bits mask d) :
      MaskedAccess root offset bits (mask &&& m.convertIpv6.toNat)
        (.op .and t d m c)

/-- `(field & mask) == value` -/
def FieldIs (offset bits : BitVec 32) (mask value : Nat)
    (packet : Nat → Bool) : Prop :=
  readBits (wrapped packet) (8 * offset.toNat) bits.toNat &&& mask = value

theorem constant_spec {m : Data} (hm : m.isConstant = true) :
    m.toIpv6 = .ok m.convertIpv6 ∧ m.isOp = false ∧
      (m.type = .unum ∨ m.type = .ipv6) := by
  cases m with
  | unum n => exact ⟨rfl, rfl, .inl rfl⟩
  | ipv6 n => exact ⟨rfl, rfl, .inr rfl⟩
  | _ => cases hm

section

variable {root d : Data} {offset bits : BitVec 32} {mask : Nat}

theorem MaskedAccess.isOp (h : MaskedAccess root offset bits mask d) :
    d.isOp = true := by
  cases h <;> rfl

/-- The masked access is what the expression means. -/
theorem MaskedAccess.num (h : MaskedAccess root offset bits mask d)
    (packet : Packet) (base : Base) :
    d.num packet base =
      readBits (packet (root.rootOr base.root))
        (base.offset + 8 * offset.toNat) bits.toNat &&& mask := by
  induction h with
  | access t =>
      rw [Nat.and_two_pow_sub_one_eq_mod, Nat.mod_eq_of_lt (readBits_lt _ _ _)]
      simp only [Data.num]
  | andLeft t c hm hd ih =>
      simp only [Data.num, numOp]
      rw [ih, ← Data.convertIpv6_toNat hm, Nat.and_comm, Nat.and_assoc]
  | andRight t c hm hd ih =>
      simp only [Data.num, numOp]
      rw [ih, ← Data.convertIpv6_toNat hm, Nat.and_assoc]

theorem MaskedAccess.mask_lt (h : MaskedAccess root offset bits mask d) :
    mask < 2 ^ bits.toNat := by
  induction h with
  | access t => exact Nat.sub_lt (Nat.two_pow_pos _) Nat.one_pos
  | andLeft t c hm hd ih => exact Nat.lt_of_le_of_lt Nat.and_le_left ih
  | andRight t c hm hd ih => exact Nat.lt_of_le_of_lt Nat.and_le_left ih

/-- The masks of the access are found. -/
theorem MaskedAccess.varMask (h : MaskedAccess root offset bits mask d)
    (old : Option U128) :
    ∃ t new, IfU32.varMask old d =
        .ok (.op .access t root (.unum offset) (.unum bits), new) ∧
      (new.getD (U128.ofBitVec32 0).not).toNat &&& (2 ^ bits.toNat - 1) =
        (old.getD (U128.ofBitVec32 0).not).toNat &&& mask := by
  induction h generalizing old with
  | access t => exact ⟨t, old, rfl, rfl⟩
  | @andLeft mask m d t c hm hd ih =>
      obtain ⟨hconvert, hop, htype⟩ := constant_spec hm
      obtain ⟨t', new, hok, hmask⟩ :=
        ih ((old.getD (U128.ofBitVec32 0).not).and m.convertIpv6)
      refine ⟨t', new, ?_, ?_⟩
      · rw [IfU32.varMask, if_pos ⟨htype, hop⟩, hconvert]
        exact hok
      · rw [hmask, Option.getD_some, U128.toNat_and, Nat.and_assoc,
          Nat.and_comm mask]
  | @andRight mask m d t c hm hd ih =>
      obtain ⟨hconvert, hop, htype⟩ := constant_spec hm
      obtain ⟨t', new, hok, hmask⟩ :=
        ih ((old.getD (U128.ofBitVec32 0).not).and m.convertIpv6)
      have hleft : ¬((d.type = .unum ∨ d.type = .ipv6) ∧ d.isOp = false) :=
        fun h => by
          rw [hd.isOp] at h
          cases h.2
      have hright : ¬((m.type ≠ .unum ∧ m.type ≠ .ipv6) ∨ m.isOp = true) := by
        rw [hop]
        rcases htype with htype | htype <;> simp [htype]
      refine ⟨t', new, ?_, ?_⟩
      · rw [IfU32.varMask, if_neg hleft, if_neg hright, hconvert]
        exact hok
      · rw [hmask, Option.getD_some, U128.toNat_and, Nat.and_assoc,
          Nat.and_comm mask]

theorem AccessBits.spec (h : AccessBits bits) :
    (128 - bits).toNat = 128 - bits.toNat ∧ 8 * (bits.toNat / 8) = bits.toNat ∧
      bits.toNat ≤ 128 := by
  rcases h with rfl | rfl | rfl | rfl <;> decide

/-- Bits of a number which is moved to the upper end. -/
theorem bit_moved (hbits : AccessBits bits) (a : U128) {i : Nat}
    (hi : i < 128) :
    (a.shiftLeft (128 - bits)).bit (127 - i) =
      (decide (i < bits.toNat) && a.bit (bits.toNat - 1 - i)) := by
  obtain ⟨hskip, -, hle⟩ := hbits.spec
  have hdecide : (127 - i < 128 ∧ 128 - bits.toNat ≤ 127 - i) ↔
      i < bits.toNat := by omega
  rw [U128.bit_shiftLeft, hskip]
  simp only [hdecide]
  cases hi : decide (i < bits.toNat) with
  | false => rw [Bool.false_and, Bool.false_and]
  | true =>
      have hlt := of_decide_eq_true hi
      have hindex : 127 - i - (128 - bits.toNat) = bits.toNat - 1 - i := by
        omega
      rw [hindex]

/-- The comparison that `dump_eq` begins with. -/
def compared (offset bits : BitVec 32) (mask value : U128)
    (keys : List Key) : Comparison :=
  ⟨value.shiftLeft (128 - bits), mask.shiftLeft (128 - bits), offset,
    bits.toNat / 8, keys, true⟩

theorem compared_fits (hbits : AccessBits bits) {m value : U128}
    (hsubset : ∀ i, value.bit i = true → m.bit i = true) (keys : List Key) :
    (compared offset bits m value keys).Fits := by
  obtain ⟨hskip, hbytes, -⟩ := hbits.spec
  refine ⟨fun i hi => ?_, fun i hi => ?_⟩
  · simp only [compared, U128.bit_shiftLeft, Bool.and_eq_true] at hi ⊢
    exact ⟨hi.1, hsubset _ hi.2⟩
  · simp only [compared, U128.bit_shiftLeft, Bool.and_eq_true,
      decide_eq_true_eq, hskip] at hi ⊢
    omega

theorem compared_rest (hbits : AccessBits bits) {m value : U128}
    (hmask : m.toNat &&& (2 ^ bits.toNat - 1) = mask)
    (hsubset : ∀ i, value.bit i = true → m.bit i = true)
    (hvalue : value.toNat < 2 ^ bits.toNat) (packet : Nat → Bool)
    (keys : List Key) :
    (compared offset bits m value keys).Rest packet ↔
      FieldIs offset bits mask value.toNat packet := by
  obtain ⟨-, -, hle⟩ := hbits.spec
  have hbit (i : Nat) : mask.testBit i = (decide (i < bits.toNat) && m.bit i) := by
    rw [← hmask, Nat.testBit_and, Nat.testBit_two_pow_sub_one,
      U128.testBit_toNat, Bool.and_comm]
  have hlow : mask < 2 ^ bits.toNat := by
    rw [← hmask, Nat.and_two_pow_sub_one_eq_mod]
    exact Nat.mod_lt _ (Nat.two_pow_pos _)
  have hsub : ∀ i, value.toNat.testBit i = true → mask.testBit i = true := by
    intro i hi
    have hlt : i < bits.toNat := by
      by_contra hge
      have hpow := Nat.pow_le_pow_right (by decide : 0 < 2) (Nat.not_lt.mp hge)
      rw [Nat.testBit_lt_two_pow (Nat.lt_of_lt_of_le hvalue hpow)] at hi
      cases hi
    rw [U128.testBit_toNat] at hi
    rw [hbit, decide_eq_true hlt, hsubset i hi]
    rfl
  have hrest : (compared offset bits m value keys).Rest packet ↔
      ∀ i < 128, i < bits.toNat ∧ m.bit (bits.toNat - 1 - i) = true →
        bitAt packet offset i = (decide (i < bits.toNat) &&
          value.bit (bits.toNat - 1 - i)) := by
    refine forall₂_congr fun i hi => ?_
    simp only [Comparison.HoldsBit, compared, bit_moved hbits _ hi,
      Bool.and_eq_true, decide_eq_true_eq]
  rw [FieldIs, readBits_and_eq_iff _ _ hlow hsub, hrest]
  simp only [Bool.and_eq_true, decide_eq_true_eq, hbit, U128.testBit_toNat]
  constructor
  · intro h i hi hm
    have hindex : bits.toNat - 1 - (bits.toNat - 1 - i) = i := by omega
    have := h (bits.toNat - 1 - i) (by omega)
      ⟨by omega, by rw [hindex]; exact hm.2⟩
    rw [hindex, decide_eq_true (by omega), Bool.true_and] at this
    exact this
  · intro h i _ ⟨hi, hm⟩
    have hindex : bits.toNat - 1 - (bits.toNat - 1 - i) = i := by omega
    have := h (bits.toNat - 1 - i) (by omega) ⟨by omega, hm⟩
    rw [hindex] at this
    rw [decide_eq_true hi, Bool.true_and]
    exact this

end

/-- A comparison of an access with a constant. -/
structure EqTest (constant var : Data) (offset bits : BitVec 32)
    (mask : Nat) : Prop where
  isConstant : constant.isConstant = true
  access : ∃ root, MaskedAccess root offset bits mask var
  accessBits : AccessBits bits
  fits : constant.convertIpv6.toNat < 2 ^ bits.toNat

/-- Whole words hold if what is printed holds. -/
structure GoodKeys (keys : List Key) : Prop where
  fits : ∀ k ∈ keys, k.Fits
  words : ∀ packet, KeysHold packet Key.lowPrinted keys →
    KeysHold packet (fun _ => 0) keys

theorem GoodKeys.printed_iff {keys : List Key} (h : GoodKeys keys)
    (packet : Nat → Bool) :
    (∀ m ∈ printedTests keys, m.Holds packet) ↔
      KeysHold packet Key.lowPrinted keys := by
  rw [printedTests_hold]
  exact forall₂_congr fun k hk => (h.fits k hk).holds_iff

section

variable {constant var : Data} {offset bits : BitVec 32} {mask : Nat}
  {keys : List Key}

/-- What `dump_eq` does once it has found the access. -/
theorem dumpEq_eq (htest : EqTest constant var offset bits mask)
    (keys : List Key) :
    ∃ m : U128, m.toNat &&& (2 ^ bits.toNat - 1) = mask ∧
      dumpEq constant var keys =
        if !(constant.convertIpv6.and m.not).isZero then .ok (false, keys)
        else
          tcMatchAll (compared offset bits m constant.convertIpv6 keys) >>=
            fun c =>
              if c.bytes ≠ 0 then
                .error (.error ("internal error: " ++ toString c.bytes ++
                  " bytes left"))
              else .ok (c.useful, c.keys) := by
  obtain ⟨hconstant, ⟨root, haccess⟩, hbits, -⟩ := htest
  obtain ⟨hconvert, hop, htype⟩ := constant_spec hconstant
  obtain ⟨t, new, hfound, hmask⟩ := haccess.varMask none
  have hside : ¬(constant.isOp = true ∨
      (constant.type ≠ .unum ∧ constant.type ≠ .ipv6)) := by
    rw [hop]
    rcases htype with htype | htype <;> simp [htype]
  have hvar : ¬var.isOp = false := by
    rw [haccess.isOp]
    exact Bool.noConfusion
  have hones : (U128.ofBitVec32 0).not.toNat = 2 ^ 128 - 1 := U128.toNat_ones
  have hlow : ((U128.ofBitVec32 0).not.shiftRight (128 - bits)).toNat =
      2 ^ bits.toNat - 1 := by
    rw [U128.toNat_shiftRight, hones]
    rcases hbits with rfl | rfl | rfl | rfl <;> rfl
  have hle : 2 ^ bits.toNat - 1 < 2 ^ 128 := by
    rcases hbits with rfl | rfl | rfl | rfl <;> decide
  refine ⟨new.getD ((U128.ofBitVec32 0).not.shiftRight (128 - bits)), ?_, ?_⟩
  · have hmasked : (2 ^ 128 - 1) &&& mask = mask := by
      rw [Nat.and_comm, Nat.and_two_pow_sub_one_eq_mod]
      exact Nat.mod_eq_of_lt (Nat.lt_of_lt_of_le haccess.mask_lt
        (Nat.pow_le_pow_right (by decide) hbits.spec.2.2))
    rw [Option.getD_none, hones, hmasked] at hmask
    rw [← hmask]
    cases new with
    | none =>
        rw [Option.getD_none, Option.getD_none, hlow, hones, Nat.and_self,
          Nat.and_comm, Nat.and_two_pow_sub_one_eq_mod, Nat.mod_eq_of_lt hle]
    | some m => rfl
  · rw [dumpEq, if_neg hside, if_neg hvar, hfound]
    simp only [bind, Except.bind, hconvert]
    rfl

theorem dumpEq_good (hkeys : GoodKeys keys)
    (htest : EqTest constant var offset bits mask) :
    (dumpEq constant var keys).Ends (fun result =>
      (result.1 = true → GoodKeys result.2 ∧ ∀ packet,
        (KeysHold packet Key.lowPrinted result.2 ↔
          KeysHold packet Key.lowPrinted keys ∧
            FieldIs offset bits mask constant.convertIpv6.toNat packet)) ∧
      (result.1 = false → ∀ packet, KeysHold packet Key.lowPrinted keys →
        ¬FieldIs offset bits mask constant.convertIpv6.toNat packet))
      (· = tooManyKeys) := by
  obtain ⟨m, hmask, hrun⟩ := dumpEq_eq htest keys
  have hzero : (constant.convertIpv6.and m.not).isZero = true ↔
      ∀ i, constant.convertIpv6.bit i = true → m.bit i = true := by
    rw [U128.isZero_iff]
    constructor
    · intro h i hi
      by_cases hlt : i < 128
      · have hbit := congrArg (·.testBit i) h
        simp only [U128.testBit_toNat, U128.bit_and, U128.bit_not _ hlt, hi,
          Bool.true_and, Nat.zero_testBit, Bool.not_eq_false'] at hbit
        exact hbit
      · rw [U128.bit_of_ge _ (Nat.not_lt.mp hlt)] at hi
        cases hi
    · intro h
      apply Nat.eq_of_testBit_eq
      intro i
      rw [U128.testBit_toNat, U128.bit_and, Nat.zero_testBit]
      by_cases hlt : i < 128
      · rw [U128.bit_not _ hlt]
        cases hi : constant.convertIpv6.bit i with
        | false => rfl
        | true => rw [h i hi]; rfl
      · rw [U128.bit_of_ge _ (Nat.not_lt.mp hlt), Bool.false_and]
  rw [hrun]
  by_cases hsubset : (constant.convertIpv6.and m.not).isZero = true
  · rw [if_neg (by rw [hsubset]; decide)]
    have hsub := hzero.mp hsubset
    have hrest (packet : Nat → Bool) :
        (compared offset bits m constant.convertIpv6 keys).Rest packet ↔
          FieldIs offset bits mask constant.convertIpv6.toNat packet :=
      compared_rest htest.accessBits hmask hsub htest.fits packet keys
    have hsound : (compared offset bits m constant.convertIpv6 keys).Sound keys
        (FieldIs offset bits mask constant.convertIpv6.toNat) :=
      ⟨compared_fits htest.accessBits hsub keys, fun _ => hkeys.fits,
        fun _ packet => and_congr_right fun _ => hrest packet,
        fun _ packet hholds _ => hkeys.words packet hholds,
        fun h => by cases h⟩
    refine (tcMatchAll_reached hsound).bind fun c hc => ?_
    obtain ⟨hc, hplace⟩ := hc
    have hbytes : c.bytes = 0 := by
      have hnone := advanceAll_bytes htest.accessBits offset
      exact (congrArg Prod.fst hplace).trans hnone
    have hdone (packet : Nat → Bool) : c.Rest packet := by
      intro i hi hm
      have := hc.fits.bytes _ hm
      omega
    rw [if_neg (not_not.mpr hbytes)]
    refine ⟨fun hu => ⟨⟨hc.keysFit hu, fun packet hholds =>
      hc.words hu packet hholds (hdone packet)⟩, fun packet => ?_⟩,
      fun hu => hc.useless hu⟩
    rw [← hc.matched hu packet, and_iff_left (hdone packet)]
  · rw [if_pos (by simpa using hsubset)]
    refine ⟨fun h => (by cases h), fun _ packet _ hfield => hsubset ?_⟩
    refine hzero.mpr fun i hi => ?_
    rw [FieldIs, ← hmask] at hfield
    rw [← U128.testBit_toNat, ← hfield, Nat.testBit_and, Nat.testBit_and,
      Bool.and_eq_true, Bool.and_eq_true] at hi
    rw [← U128.testBit_toNat]
    exact hi.2.1

end

/-- The keys of a rule after some successful tests. -/
inductive Stored : List Key → Prop
  | nil : Stored []
  | add {keys keys' : List Key} {constant var : Data} {offset bits : BitVec 32}
      {mask : Nat} (h : Stored keys)
      (htest : EqTest constant var offset bits mask)
      (hrun : dumpEq constant var keys = .ok (true, keys')) : Stored keys'

theorem Stored.good {keys : List Key} (h : Stored keys) : GoodKeys keys := by
  induction h with
  | nil =>
      exact ⟨fun k hk => (by cases hk), fun packet _ k hk => (by cases hk)⟩
  | add h htest hrun ih => exact (((dumpEq_good ih htest).of_ok hrun).1 rfl).1

end Tcng.IfU32
