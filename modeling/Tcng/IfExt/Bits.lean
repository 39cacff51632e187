import Mathlib.Data.List.Perm.Basic
import Mathlib.Tactic.Ring
import Tcng.IfExt.Rules

/-! What lists of bits say about a packet. -/

namespace Tcng.IfExt

def BitMatch.holds (packet : Packet) (b : BitMatch) : Prop :=
  packet b.offsetGroup b.offset = b.value

def Holds (packet : Packet) (bits : List BitMatch) : Prop :=
  ∀ b ∈ bits, b.holds packet

/-- No bit is tested twice. -/
def Distinct (bits : List BitMatch) : Prop :=
  bits.Pairwise fun b c =>
    ¬(b.offsetGroup = c.offsetGroup ∧ b.offset = c.offset)

theorem holds_append (packet : Packet) (as bs : List BitMatch) :
    Holds packet (as ++ bs) ↔ Holds packet as ∧ Holds packet bs :=
  List.forall_mem_append

theorem holds_cons (packet : Packet) (b : BitMatch) (bits : List BitMatch) :
    Holds packet (b :: bits) ↔ b.holds packet ∧ Holds packet bits :=
  List.forall_mem_cons

/-- Bits without repetition do not contradict each other. -/
theorem Distinct.satisfiable {bits : List BitMatch} (h : Distinct bits) :
    ∃ packet, Holds packet bits := by
  induction bits with
  | nil => exact ⟨fun _ _ => false, fun b hb => nomatch hb⟩
  | cons b bits ih =>
      obtain ⟨hfirst, hrest⟩ := List.pairwise_cons.mp h
      obtain ⟨packet, hpacket⟩ := ih hrest
      refine ⟨fun group offset =>
        if b.offsetGroup = group ∧ b.offset = offset then b.value
        else packet group offset, ?_⟩
      rw [holds_cons]
      refine ⟨if_pos ⟨rfl, rfl⟩, fun c hc => ?_⟩
      exact (if_neg (hfirst c hc)).trans (hpacket c hc)

/-! Adding tests. -/

/-- A test has been added, or contradicts the bits already there. -/
def Adds (bits : List BitMatch) (test : Packet → Prop) :
    Bool × List BitMatch → Prop
  | (true, bits') => Distinct bits' ∧
      ∀ packet, Holds packet bits' ↔ Holds packet bits ∧ test packet
  | (false, _) => ∀ packet, Holds packet bits → ¬test packet

theorem Adds.congr {bits : List BitMatch} {test test' : Packet → Prop}
    {result : Bool × List BitMatch} (h : Adds bits test result)
    (heq : ∀ packet, test packet ↔ test' packet) : Adds bits test' result := by
  rw [← funext fun packet => propext (heq packet)]
  exact h

theorem Adds.next {bits bits' : List BitMatch} {test test' : Packet → Prop}
    {result : Bool × List BitMatch} (h : Adds bits test (true, bits'))
    (h' : Adds bits' test' result) :
    Adds bits (fun packet => test packet ∧ test' packet) result := by
  obtain ⟨_ | _, bits''⟩ := result
  · intro packet hbits htests
    exact h' packet ((h.2 packet).mpr ⟨hbits, htests.1⟩) htests.2
  · refine ⟨h'.1, fun packet => ?_⟩
    rw [h'.2, h.2, and_assoc]

theorem Adds.stop {bits bits' : List BitMatch} {test : Packet → Prop}
    (h : Adds bits test (false, bits')) (test' : Packet → Prop) :
    Adds bits (fun packet => test packet ∧ test' packet) (false, bits') :=
  fun packet hbits htests => h packet hbits htests.1

theorem adds_true {bits : List BitMatch} (h : Distinct bits)
    {test : Packet → Prop} (htest : ∀ packet, test packet) :
    Adds bits test (true, bits) :=
  ⟨h, fun packet => (and_iff_left (htest packet)).symm⟩

private theorem bitMatch_adds {bits : List BitMatch} (h : Distinct bits)
    (group offset : Nat) (value : Bool) :
    match bitMatch group offset value bits with
    | none => ∀ bits', Adds bits (fun packet => packet group offset = value)
        (false, bits')
    | some bits' => Adds bits (fun packet => packet group offset = value)
        (true, bits') := by
  unfold bitMatch
  cases hfind : bits.find? fun bit =>
      bit.offsetGroup == group && bit.offset == offset with
  | some bit =>
      have hmem := List.mem_of_find?_eq_some hfind
      have hkey := List.find?_some hfind
      simp only [Bool.and_eq_true, beq_iff_eq] at hkey
      obtain ⟨rfl, rfl⟩ := hkey
      have hheld : ∀ packet, Holds packet bits →
          packet bit.offsetGroup bit.offset = bit.value :=
        fun packet hbits => hbits bit hmem
      by_cases hvalue : bit.value = value
      · simp only [hvalue, if_true]
        refine ⟨h, fun packet => ⟨fun hbits => ⟨hbits, ?_⟩, And.left⟩⟩
        exact (hheld packet hbits).trans hvalue
      · simp only [hvalue, if_false]
        intro bits' packet hbits htest
        exact hvalue ((hheld packet hbits).symm.trans htest)
  | none =>
      have hnone := List.find?_eq_none.mp hfind
      simp only [Bool.and_eq_true, beq_iff_eq] at hnone
      refine ⟨List.pairwise_append.mpr ⟨h, List.pairwise_singleton _ _, ?_⟩,
        fun packet => ?_⟩
      · intro bit hbit new hnew
        rw [List.mem_singleton.mp hnew]
        exact hnone bit hbit
      · rw [holds_append]
        exact and_congr_right fun _ => List.forall_mem_singleton

private theorem wordMatch_adds {bits : List BitMatch} (h : Distinct bits)
    (group left off : Nat) (mask value : BitVec 32)
    (hmask : ∀ j, left ≤ j → mask.getMsbD j = false) :
    Adds bits (fun packet => ∀ j, mask.getMsbD j = true →
        packet group (off + j) = value.getMsbD j)
      (wordMatch group left off mask value bits) := by
  induction left generalizing off mask value bits with
  | zero =>
      refine adds_true h fun packet j hj => ?_
      rw [hmask j (Nat.zero_le j)] at hj
      cases hj
  | succ left ih =>
      unfold wordMatch
      split
      · rename_i hzero
        refine adds_true h fun packet j hj => ?_
        rw [hzero, BitVec.ofNat_eq_ofNat, BitVec.getMsbD_zero] at hj
        cases hj
      · have hshift (x : BitVec 32) (j : Nat) :
            (x <<< 1).getMsbD j = x.getMsbD (j + 1) := by
          rw [BitVec.getMsbD_shiftLeft, Nat.add_comm]
        have hmask' : ∀ j, left ≤ j → (mask <<< 1).getMsbD j = false :=
          fun j hj => (hshift mask j).trans (hmask _ (Nat.succ_le_succ hj))
        have hsplit : ∀ packet : Packet,
            ((mask.msb = true → packet group off = value.msb) ∧
              ∀ j, (mask <<< 1).getMsbD j = true →
                packet group (off + 1 + j) = (value <<< 1).getMsbD j) ↔
            ∀ j, mask.getMsbD j = true →
              packet group (off + j) = value.getMsbD j := by
          intro packet
          constructor
          · rintro ⟨hfirst, hrest⟩ j hj
            cases j with
            | zero => exact hfirst (BitVec.msb_eq_getMsbD_zero _ ▸ hj)
            | succ j =>
                have hnext := hrest j ((hshift mask j).trans hj)
                rw [hshift, Nat.add_assoc, Nat.add_comm 1] at hnext
                exact hnext
          · intro hall
            refine ⟨fun hmsb => hall 0 hmsb, fun j hj => ?_⟩
            rw [hshift] at hj ⊢
            rw [Nat.add_assoc, Nat.add_comm 1]
            exact hall (j + 1) hj
        refine Adds.congr ?_ hsplit
        split
        · rename_i hmsb
          have hbit := bitMatch_adds h group off value.msb
          have hfirst : ∀ packet : Packet,
              packet group off = value.msb ↔
                (mask.msb = true → packet group off = value.msb) :=
            fun packet => (imp_iff_right hmsb).symm
          split
          · rename_i hnone
            rw [hnone] at hbit
            exact ((hbit bits).congr hfirst).stop _
          · rename_i bits' hsome
            rw [hsome] at hbit
            exact (hbit.congr hfirst).next (ih hbit.1 _ _ _ hmask')
        · rename_i hmsb
          exact (adds_true h fun packet hset => absurd hset hmsb).next
            (ih h _ _ _ hmask')

/-- Bits of a 128 bit word, the first one of the packet being the highest. -/
private theorem getMsbD_word (a : U128) {i j : Nat} (hj : j < 32) :
    (a.word i).getMsbD j = a.bit (32 * i + (31 - j)) := by
  have hdiv : (32 * i + (31 - j)) / 32 = i := by omega
  have hmod : (32 * i + (31 - j)) % 32 = 31 - j := by omega
  rw [U128.bit, hdiv, hmod, BitVec.getMsbD_eq_getLsbD]
  simp [hj]

private theorem word_test (mask value : U128) (group offset i : Nat)
    (packet : Packet) :
    (∀ j, (mask.word i).getMsbD j = true →
      packet group (offset + (3 - i) * 32 + j) = (value.word i).getMsbD j) ↔
    ∀ j < 32, mask.bit (32 * i + (31 - j)) = true →
      packet group (offset + (3 - i) * 32 + j) =
        value.bit (32 * i + (31 - j)) := by
  constructor
  · intro h j hj hmask
    rw [← getMsbD_word _ hj] at hmask ⊢
    exact h j hmask
  · intro h j hmask
    have hj : j < 32 := by
      refine Nat.lt_of_not_le fun hle => ?_
      rw [BitVec.getMsbD_of_ge _ _ hle] at hmask
      cases hmask
    rw [getMsbD_word _ hj] at hmask ⊢
    exact h j hj hmask

private theorem words_adds {bits : List BitMatch} (group offset : Nat)
    (mask value : U128) {test : Packet → Prop}
    {result : Bool × List BitMatch} (h : Adds bits test result)
    (words : List Nat) :
    Adds bits (fun packet => test packet ∧ ∀ i ∈ words, ∀ j < 32,
        mask.bit (32 * i + (31 - j)) = true →
          packet group (offset + (3 - i) * 32 + j) =
            value.bit (32 * i + (31 - j)))
      (words.foldl (fun (ok, bits) i =>
        if ok then
          wordMatch group 32 (offset + (3 - i) * 32) (mask.word i)
            (value.word i) bits
        else (ok, bits)) result) := by
  induction words generalizing test result with
  | nil => exact h.congr fun packet => by simp
  | cons i words ih =>
      obtain ⟨_ | _, bits'⟩ := result
      · exact (ih (h.stop _)).congr fun packet => by
          rw [List.forall_mem_cons, and_assoc]
      · have hword := (wordMatch_adds h.1 group 32 (offset + (3 - i) * 32)
          (mask.word i) (value.word i)
          fun j hj => BitVec.getMsbD_of_ge _ _ hj).congr
            (word_test mask value group offset i)
        exact (ih (h.next hword)).congr fun packet => by
          rw [List.forall_mem_cons, and_assoc]

theorem doDecomposeMatch_adds {bits : List BitMatch} (h : Distinct bits)
    (group offset : Nat) (mask value : U128) :
    Adds bits (fun packet => ∀ p < 128, mask.bit (127 - p) = true →
        packet group (offset + p) = value.bit (127 - p))
      (doDecomposeMatch group offset mask value bits) := by
  have hwords := words_adds group offset mask value
    (adds_true h (fun _ => True.intro)) [3, 2, 1, 0]
  refine hwords.congr fun packet => ⟨fun hall p hp hmask => ?_,
    fun hall => ⟨True.intro, fun i hi j hj hmask => ?_⟩⟩
  · have hword : 3 - p / 32 ∈ [3, 2, 1, 0] := by
      have hlt : p / 32 < 4 := Nat.div_lt_of_lt_mul hp
      interval_cases p / 32 <;> decide
    have hbit : 32 * (3 - p / 32) + (31 - p % 32) = 127 - p := by omega
    have hoffset : offset + (3 - (3 - p / 32)) * 32 + p % 32 = offset + p := by
      omega
    have htest := hall.2 _ hword (p % 32) (Nat.mod_lt p (by decide))
    rw [hbit, hoffset] at htest
    exact htest hmask
  · have hle : i ≤ 3 := by
      simp only [List.mem_cons, List.not_mem_nil, or_false] at hi
      omega
    have hbit : 127 - ((3 - i) * 32 + j) = 32 * i + (31 - j) := by omega
    have htest := hall ((3 - i) * 32 + j) (by omega)
    rw [hbit, ← Nat.add_assoc] at htest
    exact htest hmask

/-- `value` has no bits outside of `mask`. -/
private theorem within_mask {mask value : U128}
    (h : (value.and mask.not).isZero = true) {k : Nat}
    (hmask : mask.bit k = false) : value.bit k = false := by
  cases hk : decide (k < 128) with
  | false => exact value.bit_of_ge (Nat.le_of_not_lt (of_decide_eq_false hk))
  | true =>
      have hzero := congrArg (Nat.testBit · k) ((U128.isZero_iff _).mp h)
      rw [U128.testBit_toNat, U128.bit_and,
        U128.bit_not mask (of_decide_eq_true hk), hmask] at hzero
      simpa using hzero

private theorem isZero_within {mask value : U128}
    (h : ∀ k, value.bit k = true → mask.bit k = true) :
    (value.and mask.not).isZero = true := by
  rw [U128.isZero_iff]
  apply Nat.eq_of_testBit_eq
  intro k
  rw [U128.testBit_toNat, U128.bit_and, Nat.zero_testBit]
  cases hk : decide (k < 128) with
  | false =>
      rw [value.bit_of_ge (Nat.le_of_not_lt (of_decide_eq_false hk)),
        Bool.false_and]
  | true =>
      rw [U128.bit_not mask (of_decide_eq_true hk)]
      cases hvalue : value.bit k with
      | false => rfl
      | true => rw [h k hvalue]; rfl

/-- A masked comparison of `length` bits, in terms of the packet's bits. -/
theorem decomposeMatch_adds {bits : List BitMatch} (h : Distinct bits)
    (group offset : Nat) {length : BitVec 32} (mask value : U128)
    (hlength : length.toNat ≤ 128) (hvalue : value.toNat < 2 ^ length.toNat) :
    Adds bits (fun packet =>
        readBits (packet group) offset length.toNat &&& mask.toNat =
          value.toNat)
      (decomposeMatch group offset length mask value bits) := by
  have htest : ∀ (packet : Packet) (k : Nat),
      (readBits (packet group) offset length.toNat &&& mask.toNat).testBit k =
        ((decide (k < length.toNat) &&
          packet group (offset + (length.toNat - 1 - k))) && mask.bit k) := by
    intro packet k
    rw [Nat.testBit_and, testBit_readBits, U128.testBit_toNat]
  unfold decomposeMatch
  cases hzero : (value.and mask.not).isZero with
  | false =>
      intro packet _ heq
      have hwithin : (value.and mask.not).isZero = true :=
        isZero_within fun k hk => by
          rw [← U128.testBit_toNat, ← heq, htest] at hk
          exact (Bool.and_eq_true _ _ ▸ hk).2
      rw [hzero] at hwithin
      cases hwithin
  | true =>
      have hshift : (128 - length).toNat = 128 - length.toNat := by
        rw [BitVec.toNat_sub_of_le]
        · rfl
        · exact hlength
      have hbit : ∀ (a : U128) {p : Nat}, p < length.toNat →
          (a.shiftLeft (128 - length)).bit (127 - p) =
            a.bit (length.toNat - 1 - p) := by
        intro a p hp
        rw [U128.bit_shiftLeft, hshift]
        have hindex : 127 - p - (128 - length.toNat) = length.toNat - 1 - p := by
          omega
        rw [hindex, decide_eq_true (by omega), Bool.true_and]
      refine (doDecomposeMatch_adds h group offset _ _).congr fun packet => ?_
      constructor
      · intro hall
        apply Nat.eq_of_testBit_eq
        intro k
        rw [htest, U128.testBit_toNat]
        cases hk : decide (k < length.toNat) with
        | false =>
            have hle := Nat.le_of_not_lt (of_decide_eq_false hk)
            rw [← U128.testBit_toNat value, Nat.testBit_lt_two_pow
              (Nat.lt_of_lt_of_le hvalue (Nat.pow_le_pow_right Nat.two_pos hle))]
            rfl
        | true =>
            have hlt := of_decide_eq_true hk
            have hp : length.toNat - 1 - k < length.toNat := by omega
            have hback : length.toNat - 1 - (length.toNat - 1 - k) = k := by
              omega
            have hone := hall (length.toNat - 1 - k) (by omega)
            rw [hbit mask hp, hbit value hp, hback] at hone
            cases hmask : mask.bit k with
            | false => rw [Bool.and_false, within_mask hzero hmask]
            | true => rw [hone hmask, Bool.true_and, Bool.and_true]
      · intro heq p hp hmask
        cases hlt : decide (p < length.toNat) with
        | false =>
            have hle := Nat.le_of_not_lt (of_decide_eq_false hlt)
            rw [U128.bit_shiftLeft, hshift, decide_eq_false (by omega)]
              at hmask
            cases hmask
        | true =>
            have hp' := of_decide_eq_true hlt
            have hback : length.toNat - 1 - (length.toNat - 1 - p) = p := by
              omega
            have hk : length.toNat - 1 - p < length.toNat := by omega
            have hone := congrArg (Nat.testBit · (length.toNat - 1 - p)) heq
            rw [hbit mask hp'] at hmask
            simp only [htest, U128.testBit_toNat, hmask, hback,
              decide_eq_true hk, Bool.true_and, Bool.and_true] at hone
            rw [hbit value hp']
            exact hone

/-! What is printed says the same as the bits. -/

def Match.value (m : Match) : Nat :=
  m.digits.foldl (fun value digit => 16 * value + digit) 0

/-- The packet has the value in the bits named. -/
def Match.holds (packet : Packet) (m : Match) : Prop :=
  readBits (packet m.offsetGroup) m.offset m.length = m.value

instance (packet : Packet) (m : Match) : Decidable (m.holds packet) :=
  inferInstanceAs (Decidable (_ = _))

private theorem sortAgainst_perm (i : BitMatch) (js : List BitMatch) :
    ((sortAgainst i js).1 :: (sortAgainst i js).2).Perm (i :: js) := by
  induction js generalizing i with
  | nil => exact .refl _
  | cons j js ih =>
      unfold sortAgainst
      split
      · exact (List.Perm.swap _ _ _).trans ((ih j).cons i)
      · exact (List.Perm.swap _ _ _).trans
          (((ih i).cons j).trans (.swap _ _ _))

theorem sortBits_perm (bits : List BitMatch) :
    (sortBits bits).Perm bits := by
  induction bits using sortBits.induct with
  | case1 =>
      rw [sortBits]
  | case2 i js ih =>
      rw [sortBits]
      exact (ih.cons _).trans (sortAgainst_perm i js)

theorem holds_sortBits (packet : Packet) (bits : List BitMatch) :
    Holds packet (sortBits bits) ↔ Holds packet bits :=
  forall_congr' fun _ => imp_congr_left (sortBits_perm bits).mem_iff

/-- The number with the given binary digits. -/
def ofBinary : List Bool → Nat
  | [] => 0
  | value :: values => value.toNat * 2 ^ values.length + ofBinary values

theorem ofBinary_lt (values : List Bool) :
    ofBinary values < 2 ^ values.length := by
  induction values with
  | nil => exact Nat.one_pos
  | cons value values ih =>
      have hvalue := Nat.mul_le_mul_right (2 ^ values.length) value.toNat_le
      rw [ofBinary, List.length_cons, Nat.pow_succ]
      omega

theorem readBits_succ (bits : Nat → Bool) (start length : Nat) :
    readBits bits start (length + 1) =
      (bits start).toNat * 2 ^ length + readBits bits (start + 1) length := by
  apply Nat.eq_of_testBit_eq
  intro k
  rw [Nat.mul_comm, Nat.testBit_two_pow_mul_add _ (readBits_lt _ _ _),
    testBit_readBits, testBit_readBits]
  split
  · rename_i hk
    have hindex : start + (length + 1 - 1 - k) = start + 1 + (length - 1 - k) := by
      omega
    rw [hindex, decide_eq_true hk, decide_eq_true (Nat.lt_succ_of_lt hk)]
  · rename_i hk
    obtain ⟨n, rfl⟩ := Nat.exists_eq_add_of_le (Nat.le_of_not_lt hk)
    rw [Nat.add_sub_cancel_left]
    cases n with
    | zero => cases hbit : bits start <;> simp [hbit]
    | succ n =>
        rw [decide_eq_false (by omega), Bool.false_and]
        cases bits start <;> simp [Nat.testBit_succ]

/-- A nibble that is not full yet has its low bits free. -/
private theorem nibble_or {nibble r : Nat} (h : 2 ^ (r + 1) ∣ nibble)
    (value : Bool) :
    nibble ||| value.toNat <<< r = nibble + value.toNat * 2 ^ r := by
  obtain ⟨high, rfl⟩ := h
  rw [Nat.shiftLeft_eq]
  refine (Nat.two_pow_add_eq_or_of_lt ?_ high).symm
  have hvalue := Nat.mul_le_mul_right (2 ^ r) value.toNat_le
  rw [Nat.pow_succ]
  have hpos := Nat.two_pow_pos r
  omega

theorem nibbles_value (values : List Bool) {nibble : Nat}
    (hfree : 2 ^ (values.length % 4) ∣ nibble)
    (hzero : values.length % 4 = 0 → nibble = 0) (start : Nat) :
    (nibbles nibble values).foldl (fun value digit => 16 * value + digit)
        start =
      start * 2 ^ (4 * ((values.length + 3) / 4)) +
        nibble * 2 ^ (4 * (values.length / 4)) + ofBinary values := by
  induction values generalizing nibble start with
  | nil => simp [nibbles, ofBinary, hzero rfl]
  | cons value values ih =>
      obtain ⟨q, r, hr, hlength⟩ : ∃ q r, r < 4 ∧ values.length = 4 * q + r :=
        ⟨_, _, Nat.mod_lt _ (by decide), (Nat.div_add_mod _ 4).symm⟩
      have hmod : values.length % 4 = r := by omega
      have hdiv : values.length / 4 = q := by omega
      have hfree' : 2 ^ (r + 1) ∣ nibble := by
        rw [List.length_cons] at hfree hzero
        rcases Nat.lt_or_ge r 3 with hlt | hge
        · have hsucc : (values.length + 1) % 4 = r + 1 := by omega
          exact hsucc ▸ hfree
        · rw [hzero (by omega)]
          exact Nat.dvd_zero _
      have hpow : 2 ^ values.length = 2 ^ (4 * q) * 2 ^ r := by
        rw [hlength, Nat.pow_add]
      rw [nibbles, hmod, nibble_or hfree' value, ofBinary, List.length_cons,
        hpow]
      split
      · rename_i hfull
        have hup : (values.length + 3) / 4 = q := by omega
        have hup' : (values.length + 1 + 3) / 4 = q + 1 := by omega
        have hdiv' : (values.length + 1) / 4 = q := by omega
        rw [List.foldl_cons, ih (Nat.dvd_zero _) (fun _ => rfl), hdiv, hup,
          hup', hdiv', hfull]
        ring
      · rename_i hpart
        have hup : (values.length + 3) / 4 = q + 1 := by omega
        have hup' : (values.length + 1 + 3) / 4 = q + 1 := by omega
        have hdvd : 2 ^ (values.length % 4) ∣ nibble + value.toNat * 2 ^ r := by
          rw [hmod]
          refine Nat.dvd_add ?_ (Nat.dvd_mul_left _ _)
          exact Nat.dvd_trans (Nat.pow_dvd_pow 2 (Nat.le_succ r)) hfree'
        have hnibble : nibble * 2 ^ (4 * q) =
            nibble * 2 ^ (4 * ((values.length + 1) / 4)) := by
          rcases Nat.lt_or_ge r 3 with hlt | hge
          · have hdiv' : (values.length + 1) / 4 = q := by omega
            rw [hdiv']
          · rw [List.length_cons] at hzero
            rw [hzero (by omega), Nat.zero_mul, Nat.zero_mul]
        rw [ih hdvd (fun h => absurd (hmod ▸ h) hpart), hdiv, hup, hup',
          ← hnibble]
        ring

theorem collected_value (values : List Bool) :
    (nibbles 0 values).foldl (fun value digit => 16 * value + digit) 0 =
      ofBinary values := by
  rw [nibbles_value values (Nat.dvd_zero _) (fun _ => rfl), Nat.zero_mul,
    Nat.zero_mul, Nat.zero_add]

/-- Bits one after the other. -/
def Consecutive (group : Nat) : Nat → List BitMatch → Prop
  | _, [] => True
  | offset, bit :: bits => bit.offsetGroup = group ∧ bit.offset = offset ∧
      Consecutive group (offset + 1) bits

theorem consecutive_scanBits (group next : Nat) (bits : List BitMatch) :
    Consecutive group (next + 1) (scanBits group next bits).1 := by
  induction bits generalizing next with
  | nil => trivial
  | cons bit bits ih =>
      unfold scanBits
      split
      · rename_i h
        exact ⟨h.1.symm, h.2, ih (next + 1)⟩
      · trivial

private theorem bool_mul_add {x y : Bool} {n r s : Nat} (hr : r < n)
    (hs : s < n) (h : x.toNat * n + r = y.toNat * n + s) : x = y ∧ r = s := by
  cases x <;> cases y <;>
    simp only [Bool.toNat_true, Bool.toNat_false, Nat.zero_mul, Nat.one_mul,
      reduceCtorEq, true_and, false_and] at h ⊢ <;>
    omega

/-- Comparing a number is comparing its bits. -/
theorem Consecutive.holds_iff {group offset : Nat} {run : List BitMatch}
    (h : Consecutive group offset run) (packet : Packet) :
    readBits (packet group) offset run.length =
      ofBinary (run.map (·.value)) ↔ Holds packet run := by
  induction run generalizing offset with
  | nil => exact ⟨fun _ b hb => (nomatch hb), fun _ => rfl⟩
  | cons bit run ih =>
      obtain ⟨hgroup, hoffset, hrun⟩ := h
      subst hgroup
      subst hoffset
      have hread := readBits_lt (packet bit.offsetGroup) (bit.offset + 1)
        run.length
      have hvalue := ofBinary_lt (run.map (·.value))
      rw [List.length_map] at hvalue
      rw [holds_cons, ← ih hrun, List.length_cons, readBits_succ,
        List.map_cons, ofBinary, List.length_map, BitMatch.holds]
      constructor
      · intro heq
        exact bool_mul_add hread hvalue heq
      · rintro ⟨hbit, hrest⟩
        rw [hbit, hrest]

theorem holds_collectBits (packet : Packet) (bits : List BitMatch) :
    (∀ m ∈ collectBits bits, m.holds packet) ↔ Holds packet bits := by
  induction bits using collectBits.induct with
  | case1 => simp [collectBits, Holds]
  | case2 walk bits scan ih =>
      have hrun : Consecutive walk.offsetGroup walk.offset (walk :: scan.1) :=
        ⟨rfl, rfl, consecutive_scanBits _ _ _⟩
      have happend := scanBits_append walk.offsetGroup walk.offset bits
      rw [collectBits, List.forall_mem_cons, ih, Match.holds, Match.value]
      dsimp only
      rw [collected_value]
      have hsplit : walk :: bits = (walk :: scan.1) ++ scan.2 := by
        rw [List.cons_append]
        exact congrArg (walk :: ·) happend.symm
      rw [hsplit, holds_append, ← hrun.holds_iff]
      rfl

end Tcng.IfExt
