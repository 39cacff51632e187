import Tcng.IfExt.OffsetPlaces

/-! The lines of `build_offset_group` lead eight times as far as the expression
is worth, as long as no mask has a hole the packet has a bit in. -/

namespace Tcng.IfExt

open MaskShift Holes

variable {taken : List Nat}

/-! ## Places -/

namespace Place

def ofBase (base : Base) : Place := ⟨base.root, .ofNat 32 base.offset⟩

theorem ofBase_base (p : Place) : ofBase p.base = p := by
  rw [ofBase, base, BitVec.ofNat_toNat, BitVec.setWidth_eq]

theorem ofBase_add (base : Base) (n : Nat) :
    ofBase { base with offset := base.offset + n } = (ofBase base).advance n := by
  rw [ofBase, ofBase, advance, BitVec.ofNat_add]

end Place

theorem Wire.readBits_packet (wire : Wire) (root : Nat) {start start' : Nat}
    (h : BitVec.ofNat 32 start = .ofNat 32 start') (length : Nat) :
    readBits (wire.packet root) start length =
      readBits (wire.packet root) start' length := by
  rw [readBits_inj]
  intro i _
  rw [Wire.packet, Wire.packet, BitVec.ofNat_add, h, ← BitVec.ofNat_add]

theorem Place.read_ofBase (wire : Wire) (base : Base) (length : Nat) :
    (ofBase base).read wire length =
      readBits (wire.packet base.root) base.offset length := by
  refine Wire.readBits_packet wire base.root ?_ length
  rw [ofBase, BitVec.ofNat_toNat, BitVec.setWidth_eq]

/-- The end of what is read, without its last bits. -/
theorem Place.read_advance (wire : Wire) (p : Place) (front length back : Nat) :
    (p.advance front).read wire length =
      p.read wire (front + length + back) / 2 ^ back % 2 ^ length := by
  have hshift := readBits_shiftRight (wire.packet p.root) p.position.toNat
    (front + length) back
  rw [Nat.shiftRight_eq_div_pow] at hshift
  rw [Place.read, Place.read, hshift, readBits_mod]
  refine Wire.readBits_packet wire p.root ?_ length
  rw [BitVec.ofNat_add, BitVec.ofNat_toNat, BitVec.ofNat_toNat,
    BitVec.setWidth_eq, BitVec.setWidth_eq]
  rfl

theorem ofNat_shiftLeft (m n : Nat) :
    BitVec.ofNat 32 m <<< n = .ofNat 32 (m * 2 ^ n) := by
  apply BitVec.eq_of_toNat_eq
  rw [BitVec.toNat_shiftLeft, BitVec.toNat_ofNat, BitVec.toNat_ofNat,
    Nat.shiftLeft_eq, Nat.mod_mul_mod]

/-! ## The list of lines -/

theorem not_mem_skipTaken (taken : List Nat) (next : Nat) :
    skipTaken taken next ∉ taken := by
  fun_induction skipTaken taken next with
  | case1 next hmem ih => exact ih
  | case2 next hmem => exact hmem

theorem le_skipTaken (taken : List Nat) (next : Nat) :
    next ≤ skipTaken taken next := by
  fun_induction skipTaken taken next with
  | case1 next hmem ih => exact Nat.le_of_succ_le ih
  | case2 next hmem => exact Nat.le_refl next

/-- The lines stay valid, and a group is where a line with these numbers says
it is. -/
theorem lookupOffsetGroup_spec {base valueBase : Nat} {gs : OffsetGroups}
    (hgs : gs.Valid taken) (hbase : Known taken gs.groups base)
    (hvalue : Known taken gs.groups valueBase) (offset : BitVec 32)
    (length shift : Nat) :
    ∃ n gs', lookupOffsetGroup taken base valueBase offset length shift gs =
        (n, gs') ∧
      gs'.Valid taken ∧ gs.groups <+: gs'.groups ∧
      Known taken gs'.groups n ∧
      ∀ wire, places wire gs'.groups n =
        OffsetGroup.place wire (places wire gs.groups)
          ⟨n, base, valueBase, offset, length, shift⟩ := by
  unfold lookupOffsetGroup
  cases hfind : gs.groups.find? _ with
  | some g =>
      have hmem := List.mem_of_find?_eq_some hfind
      have hkey := List.find?_some hfind
      obtain ⟨rfl, rfl, rfl, rfl, rfl⟩ := of_decide_eq_true hkey
      exact ⟨g.number, gs, rfl, hgs, List.prefix_refl _, .inr ⟨g, hmem, rfl⟩,
        fun wire => hgs.listed.places_line wire hmem⟩
  | none =>
      have hle := le_skipTaken taken gs.next
      have hnew : ¬Known taken gs.groups (skipTaken taken gs.next) := by
        rintro (htaken | ⟨g, hg, hnumber⟩)
        · exact not_mem_skipTaken taken gs.next htaken
        · have hlt := hgs.lt g hg
          omega
      refine ⟨_, _, rfl, ⟨.snoc hgs.listed hnew hbase hvalue, ?_⟩,
        List.prefix_append _ _, .inr ⟨_, List.mem_concat_self, rfl⟩, ?_⟩
      · intro g hg
        obtain hold | hlast := List.mem_append.mp hg
        · exact Nat.lt_succ_of_lt (Nat.lt_of_lt_of_le (hgs.lt g hold) hle)
        · rw [List.mem_singleton.mp hlast]
          exact Nat.lt_succ_self _
      · intro wire
        rw [places_snoc, Function.update_self]

/-! ## The two loops over the mask -/

theorem dropLow_spec {mask : BitVec 32} (h : mask ≠ 0) (length shift : Int) :
    ∃ t : Nat, dropLow mask length shift =
        (mask >>> t, length - t, shift + t) ∧ Lowest mask.toNat t := by
  fun_induction dropLow mask length shift with
  | case1 mask length shift hstop =>
      have hbit := hstop.resolve_left h
      refine ⟨0, by simp, ⟨hbit, fun i hi => absurd hi (Nat.not_lt_zero i)⟩⟩
  | case2 mask length shift hgo ih =>
      obtain ⟨hne, hlow⟩ := not_or.mp hgo
      rw [Bool.not_eq_true] at hlow
      have hbit (i : Nat) :
          (mask >>> 1).toNat.testBit i = mask.toNat.testBit (1 + i) := by
        rw [BitVec.toNat_ushiftRight, Nat.testBit_shiftRight]
      have hne' : mask >>> 1 ≠ 0 := by
        intro hzero
        refine hne (BitVec.eq_of_getLsbD_eq fun i _ => ?_)
        rw [BitVec.ofNat_eq_ofNat, BitVec.getLsbD_zero]
        cases i with
        | zero => exact hlow
        | succ i =>
            have hi := hbit i
            rw [hzero, Nat.add_comm] at hi
            exact hi.symm.trans (Nat.zero_testBit i)
      obtain ⟨t, heq, hlowest⟩ := ih hne'
      refine ⟨t + 1, ?_, ⟨?_, ?_⟩⟩
      · rw [heq, ← BitVec.shiftRight_add, Nat.add_comm 1 t]
        push_cast
        congr 2 <;> omega
      · rw [Nat.add_comm, ← hbit]
        exact hlowest.bit
      · intro i hi
        cases i with
        | zero => exact hlow
        | succ i =>
            rw [Nat.add_comm, ← hbit]
            exact hlowest.below i (Nat.lt_of_succ_lt_succ hi)

theorem dropHigh_spec {mask : BitVec 32} (h : mask ≠ 0) (offset : BitVec 32)
    (length : Nat) :
    ∃ z < 32, dropHigh mask offset length =
        (offset + .ofNat 32 z, length - z) ∧
      Highest 32 mask.toNat (31 - z) := by
  fun_induction dropHigh mask offset length with
  | case1 mask offset length hstop =>
      have hbit := hstop.resolve_left h
      refine ⟨0, by decide, by simp, by decide, ?_, fun i hi hlt => ?_⟩
      · exact hbit
      · omega
  | case2 mask offset length hgo ih =>
      obtain ⟨hne, hhigh⟩ := not_or.mp hgo
      rw [Bool.not_eq_true] at hhigh
      have htop : mask.toNat.testBit 31 = false := hhigh
      have hbit (i : Nat) (hi : i < 31) :
          (mask <<< 1).toNat.testBit (i + 1) = mask.toNat.testBit i := by
        rw [BitVec.testBit_toNat, BitVec.getLsbD_shiftLeft,
          decide_eq_true (by omega), decide_eq_false (by omega),
          Nat.add_sub_cancel, BitVec.testBit_toNat]
        simp
      have hne' : mask <<< 1 ≠ 0 := by
        intro hzero
        refine hne (BitVec.eq_of_getLsbD_eq fun i hi => ?_)
        rw [BitVec.ofNat_eq_ofNat, BitVec.getLsbD_zero,
          ← BitVec.testBit_toNat]
        obtain hlt | rfl := Nat.lt_or_eq_of_le (Nat.le_of_lt_succ hi)
        · rw [← hbit i hlt, hzero]
          exact Nat.zero_testBit _
        · exact htop
      obtain ⟨z, hz, heq, hhighest⟩ := ih hne'
      have hz' : z < 31 := by
        refine Nat.lt_of_le_of_ne (Nat.le_of_lt_succ hz) fun heq => ?_
        have hzero := hhighest.bit
        rw [heq, BitVec.testBit_toNat] at hzero
        simp at hzero
      refine ⟨z + 1, by omega, ?_, by omega, ?_, fun i hi hlt => ?_⟩
      · rw [heq, Nat.add_comm z 1, BitVec.ofNat_add, ← BitVec.add_assoc,
          Nat.sub_sub]
        rfl
      · rw [← hbit (31 - (z + 1)) (by omega)]
        have hindex : 31 - (z + 1) + 1 = 31 - z := by omega
        rw [hindex]
        exact hhighest.bit
      · obtain hlast | rfl := Nat.lt_or_eq_of_le (Nat.le_of_lt_succ hi)
        · rw [← hbit i hlast]
          exact hhighest.above (i + 1) (by omega) (by omega)
        · exact htop

/-- The highest bit, before the mask was moved to the end of the word. -/
theorem highest_aligned {mask : BitVec 32} {t n z : Nat} (hn : 1 ≤ n)
    (hn' : n ≤ 32) (hz : z < 32)
    (h : Highest 32 ((mask >>> t) <<< (32 - n)).toNat (31 - z)) :
    z < n ∧ Highest (n + t) mask.toNat (n + t - 1 - z) := by
  have hbit (i : Nat) (hi : i < 32) :
      ((mask >>> t) <<< (32 - n)).toNat.testBit i =
        (!decide (i < 32 - n) && mask.toNat.testBit (t + (i - (32 - n)))) := by
    rw [BitVec.testBit_toNat, BitVec.getLsbD_shiftLeft, decide_eq_true hi,
      Bool.true_and, BitVec.getLsbD_ushiftRight, BitVec.testBit_toNat]
  have htop := h.bit
  rw [hbit _ (by omega), Bool.and_eq_true, Bool.not_eq_true',
    decide_eq_false_iff_not] at htop
  obtain ⟨hlow, htop⟩ := htop
  have hzn : z < n := by omega
  have hindex : t + (31 - z - (32 - n)) = n + t - 1 - z := by omega
  refine ⟨hzn, by omega, hindex ▸ htop, fun i hi hlt => ?_⟩
  have habove := h.above (i - t + (32 - n)) (by omega) (by omega)
  have hback : t + (i - t + (32 - n) - (32 - n)) = i := by omega
  rwa [hbit _ (by omega), decide_eq_false (by omega), Bool.not_false,
    Bool.true_and, hback] at habove

theorem dropLow_ne_zero {mask : BitVec 32} {t n : Nat}
    (ht : Lowest mask.toNat t) (hn : 1 ≤ n) (hn' : n ≤ 32) :
    (mask >>> t) <<< (32 - n) ≠ 0 := by
  intro hzero
  have hbit : ((mask >>> t) <<< (32 - n)).getLsbD (32 - n) = true := by
    rw [BitVec.getLsbD_shiftLeft, decide_eq_true (by omega),
      decide_eq_false (by omega), Nat.sub_self, BitVec.getLsbD_ushiftRight,
      Nat.add_zero, ← BitVec.testBit_toNat, ht.bit]
    rfl
  rw [hzero, BitVec.ofNat_eq_ofNat, BitVec.getLsbD_zero] at hbit
  cases hbit

/-! ## One access -/

/-- The field has the bits under the mask and those in its holes. -/
theorem field_worth {ss : List Step} {t k length v shift : Nat}
    (ht : Lowest (shown 32 ss) t) (hk : Highest length (shown 32 ss) k)
    (hlength : length ≤ 32) (hv : v < 2 ^ length)
    (hshift : (shift : Int) = 3 + lefts ss - rights ss + t) :
    v / 2 ^ t % 2 ^ (k + 1 - t) * 2 ^ shift =
      8 * kept 32 ss v +
        8 * ((v &&& holes length (shown 32 ss)) * 2 ^ lefts ss /
          2 ^ rights ss) := by
  have hv' : v < 2 ^ 32 :=
    Nat.lt_of_lt_of_le hv (Nat.pow_le_pow_right (by decide) hlength)
  have hfield := field_eq ht hk hv
  have hkept := kept_shown ss hv'
  obtain ⟨-, hrights, -⟩ := shown_stays ht.bit
  obtain ⟨e, he⟩ := Nat.exists_eq_add_of_le hrights
  have hexponent : shift = e + 3 := by omega
  generalize v / 2 ^ t % 2 ^ (k + 1 - t) = field at hfield
  have htotal : field * 2 ^ e * 2 ^ rights ss =
      kept 32 ss v * 2 ^ rights ss +
        (v &&& holes length (shown 32 ss)) * 2 ^ lefts ss := by
    calc field * 2 ^ e * 2 ^ rights ss
        = field * 2 ^ t * 2 ^ lefts ss := by
          rw [Nat.mul_assoc, Nat.mul_assoc, ← Nat.pow_add, ← Nat.pow_add, he,
            Nat.add_comm e]
      _ = _ := by rw [hfield, Nat.add_mul, hkept]
  have hle : kept 32 ss v ≤ field * 2 ^ e := by
    refine Nat.le_of_mul_le_mul_right ?_ (Nat.two_pow_pos (rights ss))
    omega
  have hholes : (v &&& holes length (shown 32 ss)) * 2 ^ lefts ss =
      (field * 2 ^ e - kept 32 ss v) * 2 ^ rights ss := by
    rw [Nat.sub_mul]
    omega
  rw [hholes, Nat.mul_div_cancel _ (Nat.two_pow_pos _), hexponent, Nat.pow_add,
    ← Nat.mul_assoc]
  omega

/-- What an access that ends a term is worth for the groups. -/
def worth (ss : List Step) (length v : Nat) : Nat :=
  8 * kept 32 ss v +
    8 * ((v &&& holes length (shown 32 ss)) * 2 ^ lefts ss / 2 ^ rights ss)

theorem worth_of_shown_zero {ss : List Step} (h : shown 32 ss = 0)
    (length : Nat) {v : Nat} (hv : v < 2 ^ 32) : worth ss length v = 0 := by
  have hkept := kept_shown ss hv
  rw [h, Nat.and_zero, Nat.zero_mul, Nat.mul_eq_zero,
    or_iff_left (Nat.two_pow_pos _).ne'] at hkept
  rw [worth, h, holes_zero, hkept, Nat.and_zero, Nat.zero_mul, Nat.zero_div]

/-- A step that keeps the lines valid and goes on from a base by what a packet
says. -/
structure Leads (taken : List Nat) (base : Nat) (gs : OffsetGroups) (n : Nat)
    (gs' : OffsetGroups) (steps : Wire → Nat → Prop) : Prop where
  valid : gs'.Valid taken
  above : gs.groups <+: gs'.groups
  known : Known taken gs'.groups n
  place : ∀ wire bits, steps wire bits →
    places wire gs'.groups n = (places wire gs.groups base).advance bits

theorem fieldGroup_leads {ss : List Step} {base : Nat} {r : Reached}
    {gs gs' : OffsetGroups} {n : Nat}
    (h : fieldGroup taken base r gs = .ok (n, gs'))
    (hmask : r.mask.toNat = shown 32 ss)
    (hshift : r.shift = 3 + lefts ss - rights ss)
    (hlength : r.length.toNat ≤ 32) (hgs : gs.Valid taken)
    (hbase : Known taken gs.groups base)
    (hvalue : Known taken gs.groups r.valueBase) :
    Leads taken base gs n gs' fun wire bits =>
      bits = worth ss r.length.toNat
        (((places wire gs.groups r.valueBase).advance (8 * r.offset.toNat)).read
          wire r.length.toNat) := by
  have hread (wire : Wire) (p : Place) :
      p.read wire r.length.toNat < 2 ^ r.length.toNat := readBits_lt _ _ _
  unfold fieldGroup at h
  split at h
  · cases h
  split at h
  · next hzero =>
      obtain ⟨rfl, rfl⟩ := Prod.mk.inj (Except.ok.inj h)
      rw [hzero] at hmask
      refine ⟨hgs, List.prefix_refl _, hbase, fun wire bits hbits => ?_⟩
      have hlt := Nat.lt_of_lt_of_le (hread wire
        ((places wire gs.groups r.valueBase).advance (8 * r.offset.toNat)))
        (Nat.pow_le_pow_right (by decide) hlength)
      rw [hbits, worth_of_shown_zero hmask.symm _ hlt, Place.advance,
        BitVec.add_zero]
  · next hne =>
      obtain ⟨t, hlow, hlowest⟩ := dropLow_spec hne r.length.toInt r.shift
      have htoInt : r.length.toInt = r.length.toNat :=
        BitVec.toInt_eq_toNat_of_lt (by omega)
      rw [hlow, htoInt] at h
      dsimp only at h
      split at h
      · cases h
      split at h
      · cases h
      next hnonneg hdefined =>
      obtain ⟨m, hm⟩ : ∃ m : Nat, (r.length.toNat : Int) - t = m :=
        Int.eq_ofNat_of_zero_le (by omega)
      obtain ⟨shift, hs⟩ : ∃ s : Nat, r.shift + t = s :=
        Int.eq_ofNat_of_zero_le (by omega)
      have hsub : ((32 : Int) - m).toNat = 32 - m := by omega
      rw [hm, hs, hsub, Int.toNat_natCast, Int.toNat_natCast] at h
      have hm1 : 1 ≤ m := by omega
      have hm32 : m ≤ 32 := by omega
      have hne' := dropLow_ne_zero hlowest hm1 hm32
      obtain ⟨z, hz, hhigh, hhighest⟩ :=
        dropHigh_spec hne' (r.offset * 8) m
      obtain ⟨hzm, hhighest⟩ := highest_aligned hm1 hm32 hz hhighest
      rw [if_neg hne', hhigh] at h
      obtain ⟨n', gs'', hlookup, hvalid, hextends, hknown, hplace⟩ :=
        lookupOffsetGroup_spec hgs hbase hvalue (r.offset * 8 + .ofNat 32 z)
          (m - z) shift
      rw [hlookup] at h
      obtain ⟨rfl, rfl⟩ := Prod.mk.inj (Except.ok.inj h)
      refine ⟨hvalid, hextends, hknown, fun wire bits hbits => ?_⟩
      have htotal : r.length.toNat = m + t := by omega
      rw [htotal] at hbits hread
      rw [hmask] at hlowest hhighest
      have hs' : (shift : Int) = 3 + lefts ss - rights ss + t := by
        rw [← hs, hshift]
      have hworth := field_worth hlowest hhighest (htotal ▸ hlength)
        (hread wire ((places wire gs.groups r.valueBase).advance
          (8 * r.offset.toNat))) hs'
      have hwidth : m + t - 1 - z + 1 - t = m - z := by omega
      have hsplit : z + (m - z) + t = m + t := by omega
      have hoffset (p : Place) :
          p.advance (r.offset * 8 + .ofNat 32 z).toNat =
            (p.advance (8 * r.offset.toNat)).advance z := by
        rw [Place.advance_advance]
        apply Place.advance_congr
        rw [BitVec.toNat_add, BitVec.toNat_mul, BitVec.toNat_ofNat]
        simp only [BitVec.ofNat_eq_ofNat, BitVec.toNat_ofNat]
        omega
      rw [hplace, OffsetGroup.place, hbits, worth, ← hworth, hwidth, hoffset,
        Place.read_advance wire _ z (m - z) t, hsplit, ofNat_shiftLeft]
      rfl

/-! ## Expressions -/

theorem Shaped.width {d : Data} (h : Shaped taken d) : d.width = 32 := by
  induction d with
  | ipv6 n => exact h.elim
  | op dsc t a b c iha ihb ihc =>
      by_cases hdsc : dsc = .access
      · subst hdsc
        cases c with
        | unum length =>
            refine if_neg fun heq => ?_
            have hle := h.2 length rfl
            rw [heq] at hle
            exact absurd hle (by decide)
        | _ => rfl
      · have hab : Shaped taken a ∧ Shaped taken b ∧ Shaped taken c := by
          cases dsc
          case access => exact absurd rfl hdsc
          all_goals exact h
        have hwa := iha hab.1
        have hwb := ihb hab.2.1
        cases dsc
        case access => exact absurd rfl hdsc
        all_goals first
          | rfl
          | exact hwa
          | (rw [Data.width, hwa, hwb]; rfl)
  | _ => rfl

/-- What the first loop has found out when it reaches the access. -/
structure Descends (taken : List Nat) (mask : BitVec 32) (shift : Int)
    (valueBase : Nat) (d : Data) (gs : OffsetGroups) (r : Reached)
    (gs' : OffsetGroups) : Prop where
  valid : gs'.Valid taken
  above : gs.groups <+: gs'.groups
  known : Known taken gs'.groups r.valueBase
  mask : r.mask.toNat = back 32 (moves d) mask.toNat
  shift : r.shift = shift + lefts (moves d) - rights (moves d)
  length : r.length.toNat = accessLength d
  length_le : r.length.toNat ≤ 32
  value : ∀ wire base, places wire gs.groups valueBase = .ofBase base →
    NestedTight wire.packet d base →
    d.num wire.packet base =
        kept 32 (moves d) (accessed wire.packet d base) ∧
      accessed wire.packet d base =
        ((places wire gs'.groups r.valueBase).advance (8 * r.offset.toNat)).read
          wire r.length.toNat

section

variable {mask mask' : BitVec 32} {shift shift' : Int} {valueBase : Nat}
  {a d : Data} {gs gs' : OffsetGroups} {r : Reached}

/-- A mask or a shift on the way to the access. -/
theorem Descends.step (s : Step)
    (h : Descends taken mask' shift' valueBase a gs r gs')
    (hmoves : moves d = s :: moves a)
    (hmask : mask'.toNat = s.back 32 mask.toNat)
    (hshift : shift' = shift + s.lefts - s.rights)
    (hlength : accessLength d = accessLength a)
    (haccess : ∀ packet base, accessed packet d base = accessed packet a base)
    (htight : ∀ packet base, NestedTight packet d base →
      NestedTight packet a base)
    (hnum : ∀ packet base, a.num packet base < 2 ^ 32 →
      d.num packet base = s.act (a.num packet base) % 2 ^ 32) :
    Descends taken mask shift valueBase d gs r gs' where
  valid := h.valid
  above := h.above
  known := h.known
  mask := by
    rw [h.mask, hmoves, hmask]
    rfl
  shift := by
    have hrest := h.shift
    rw [hmoves, lefts, rights, List.map_cons, List.map_cons, List.sum_cons,
      List.sum_cons]
    rw [lefts, rights] at hrest
    omega
  length := h.length.trans hlength.symm
  length_le := h.length_le
  value := by
    intro wire base hplace hd
    obtain ⟨hvalue, hread⟩ := h.value wire base hplace (htight _ _ hd)
    have hlt : accessed wire.packet a base < 2 ^ 32 := by
      rw [hread]
      exact Nat.lt_of_lt_of_le (readBits_lt _ _ _)
        (Nat.pow_le_pow_right (by decide) h.length_le)
    rw [haccess, hmoves]
    refine ⟨?_, hread⟩
    rw [hnum _ _ (hvalue ▸ kept_lt _ hlt), hvalue]
    rfl

theorem Listed.places_taken {groups : List OffsetGroup}
    (h : Listed taken groups) (wire : Wire) {root : Nat} (hroot : root ∈ taken) :
    places wire groups root = .ofBase ⟨root, 0⟩ :=
  h.places_prefix List.nil_prefix wire (.inl hroot)

end

/-- What `build_offset_group` does to the lines. -/
def Builds (taken : List Nat) (d : Data) : Prop :=
  ∀ {base valueBase : Nat} {gs : OffsetGroups} {n : Nat} {gs' : OffsetGroups},
    buildOffsetGroup taken base valueBase d gs = .ok (n, gs') →
    gs.Valid taken → Known taken gs.groups base →
    Known taken gs.groups valueBase →
    Leads taken base gs n gs' fun wire bits => ∃ start,
      places wire gs.groups valueBase = .ofBase start ∧
        NestedTight wire.packet d start ∧
        bits = 8 * d.num wire.packet start + leak wire.packet d start

/-- What the first loop does on an expression. -/
def Reaches (taken : List Nat) (d : Data) : Prop :=
  ∀ {mask : BitVec 32} {shift : Int} {valueBase : Nat} {gs : OffsetGroups}
    {r : Reached} {gs' : OffsetGroups},
    descend taken mask shift valueBase d gs = .ok (r, gs') →
    gs.Valid taken → Known taken gs.groups valueBase →
    Descends taken mask shift valueBase d gs r gs'

theorem leak_term {d : Data} (h : ∀ t a b c, d ≠ .op .plus t a b c)
    (packet : Packet) (base : Base) :
    leak packet d base =
      8 * ((accessed packet d base &&&
        holes (accessLength d) (shown 32 (moves d))) * 2 ^ lefts (moves d) /
          2 ^ rights (moves d)) := by
  unfold leak
  split
  · exact absurd rfl (h _ _ _ _)
  · rfl

theorem Reaches.builds {d : Data} (h : Reaches taken d)
    (hplus : ∀ t a b c, d ≠ .op .plus t a b c) : Builds taken d := by
  intro base valueBase gs n gs' hbuild hgs hbase hvalue
  have hnew : newOffsetGroup taken base valueBase d gs = .ok (n, gs') := by
    rw [← hbuild]
    unfold buildOffsetGroup
    split
    · exact absurd rfl (hplus _ _ _ _)
    · rfl
  rw [newOffsetGroup, bind_eq_ok] at hnew
  obtain ⟨⟨r, gs₁⟩, hdescend, hfield⟩ := hnew
  have hreach := h hdescend hgs hvalue
  have hshown : r.mask.toNat = shown 32 (moves d) := by
    rw [hreach.mask, ← back_ones]
    rfl
  have hleads := fieldGroup_leads hfield hshown hreach.shift hreach.length_le
    hreach.valid (hbase.mono hreach.above) hreach.known
  refine ⟨hleads.valid, hreach.above.trans hleads.above, hleads.known, ?_⟩
  rintro wire bits ⟨start, hstart, htight, rfl⟩
  obtain ⟨hnum, hread⟩ := hreach.value wire start hstart htight
  rw [hleads.place wire _ rfl, ← hread, hreach.length,
    hreach.valid.listed.places_prefix hreach.above wire hbase, worth,
    leak_term hplus, hnum]

theorem Builds.plus {t : DataType} {a b c : Data}
    (hd : Shaped taken (.op .plus t a b c))
    (ha : Builds taken a) (hb : Builds taken b) :
    Builds taken (.op .plus t a b c) := by
  intro base valueBase gs n gs' hbuild hgs hbase hvalue
  rw [buildOffsetGroup, bind_eq_ok] at hbuild
  obtain ⟨⟨n₁, gs₁⟩, hfirst, hsecond⟩ := hbuild
  have hleft := ha hfirst hgs hbase hvalue
  have hright := hb hsecond hleft.valid hleft.known (hvalue.mono hleft.above)
  refine ⟨hright.valid, hleft.above.trans hright.above, hright.known, ?_⟩
  rintro wire bits ⟨start, hstart, htight, rfl⟩
  have hstart' : places wire gs₁.groups valueBase = .ofBase start :=
    (hleft.valid.listed.places_prefix hleft.above wire hvalue).trans hstart
  rw [hright.place wire _ ⟨start, hstart', htight.2, rfl⟩,
    hleft.place wire _ ⟨start, hstart, htight.1, rfl⟩, Place.advance_advance]
  apply Place.advance_congr
  have hnum : (Data.op .plus t a b c).num wire.packet start =
      (a.num wire.packet start + b.num wire.packet start) % 2 ^ 32 := by
    change numOp .plus (max a.width b.width) _ _ = _
    rw [hd.1.width, hd.2.1.width]
    rfl
  rw [hnum, leak]
  omega

section

variable {t : DataType} {a b c : Data}

/-- Which operand of `&` is the constant. -/
theorem descend_and {mask : BitVec 32} {shift : Int} {valueBase : Nat}
    {gs : OffsetGroups} {result : Reached × OffsetGroups}
    (h : descend taken mask shift valueBase (.op .and t a b c) gs = .ok result) :
    (∃ n, a = .unum n ∧
        descend taken (mask &&& n) shift valueBase b gs = .ok result) ∨
      ∃ n, b = .unum n ∧ (∀ n, a ≠ .unum n) ∧
        descend taken (mask &&& n) shift valueBase a gs = .ok result := by
  cases a with
  | unum n =>
      rw [descend] at h
      exact .inl ⟨n, rfl, h⟩
  | _ =>
      cases b with
      | unum n =>
          rw [descend] at h
          · exact .inr ⟨n, rfl, fun _ heq => (by cases heq), h⟩
          · exact fun _ heq => by cases heq
      | _ => simp [descend] at h

theorem Reaches.access (hd : Shaped taken (.op .access t a b c)) :
    Reaches taken (.op .access t a b c) := by
  intro mask shift valueBase gs r gs' h hgs hvalue
  obtain ⟨rfl, hlength⟩ := hd
  cases b with
  | unum offset =>
      cases c with
      | unum length =>
          rw [descend] at h
          obtain ⟨rfl, rfl⟩ := Prod.mk.inj (Except.ok.inj h)
          refine ⟨hgs, List.prefix_refl _, hvalue, rfl, by simp [moves, lefts,
            rights], rfl, hlength length rfl, fun wire base hplace _ => ⟨rfl, ?_⟩⟩
          rw [hplace, ← Place.ofBase_add, Place.read_ofBase]
          rfl
      | _ => simp [descend] at h
  | _ => simp [descend] at h

theorem Reaches.shiftLeft (hd : Shaped taken (.op .shiftLeft t a b c))
    (ha : Reaches taken a) : Reaches taken (.op .shiftLeft t a b c) := by
  intro mask shift valueBase gs r gs' h hgs hvalue
  cases b with
  | unum n =>
      rw [descend] at h
      split at h
      · refine (ha h hgs hvalue).step (.left n.toNat) rfl ?_ ?_ rfl
          (fun _ _ => rfl) (fun _ _ h => h.1) fun packet base _ => ?_
        · rw [BitVec.ushiftRight_eq', BitVec.toNat_ushiftRight,
            Nat.shiftRight_eq_div_pow]
          rfl
        · simp [Step.lefts, Step.rights]
        · change numOp .shiftLeft (max a.width _) _ _ = _
          rw [hd.1.width, numOp, Nat.shiftLeft_eq]
          rfl
      · cases h
  | _ => simp [descend] at h

theorem Reaches.shiftRight (ha : Reaches taken a) :
    Reaches taken (.op .shiftRight t a b c) := by
  intro mask shift valueBase gs r gs' h hgs hvalue
  cases b with
  | unum n =>
      rw [descend] at h
      split at h
      · refine (ha h hgs hvalue).step (.right n.toNat) rfl ?_ ?_ rfl
          (fun _ _ => rfl) (fun _ _ h => h.1) fun packet base hlt => ?_
        · rw [BitVec.shiftLeft_eq', BitVec.toNat_shiftLeft, Nat.shiftLeft_eq]
          rfl
        · simp [Step.lefts, Step.rights]
        · change a.num packet base >>> n.toNat = _
          rw [Nat.shiftRight_eq_div_pow, Step.act,
            Nat.mod_eq_of_lt (Nat.lt_of_le_of_lt (Nat.div_le_self _ _) hlt)]
      · cases h
  | _ => simp [descend] at h

theorem Reaches.and (ha : Reaches taken a) (hb : Reaches taken b) :
    Reaches taken (.op .and t a b c) := by
  intro mask shift valueBase gs r gs' h hgs hvalue
  have hact (x : Nat) (n : BitVec 32) (hx : x < 2 ^ 32) :
      x &&& n.toNat = (Step.mask n.toNat).act x % 2 ^ 32 :=
    (Nat.mod_eq_of_lt (Nat.lt_of_le_of_lt Nat.and_le_left hx)).symm
  obtain ⟨n, rfl, hrest⟩ | ⟨n, rfl, hne, hrest⟩ := descend_and h
  · refine (hb hrest hgs hvalue).step (.mask n.toNat) rfl (BitVec.toNat_and _ _)
      (by simp [Step.lefts, Step.rights]) rfl (fun _ _ => rfl)
      (fun _ _ h => h.2) fun packet base hlt => ?_
    rw [← hact _ _ hlt, Nat.and_comm]
    rfl
  · have hright : moves (.op .and t a (.unum n) c) =
          .mask n.toNat :: moves a ∧
        accessLength (.op .and t a (.unum n) c) = accessLength a ∧
        ∀ packet base, accessed packet (.op .and t a (.unum n) c) base =
          accessed packet a base := by
      cases a with
      | unum n => exact absurd rfl (hne n)
      | _ => exact ⟨rfl, rfl, fun _ _ => rfl⟩
    refine (ha hrest hgs hvalue).step (.mask n.toNat) hright.1
      (BitVec.toNat_and _ _) (by simp [Step.lefts, Step.rights]) hright.2.1
      hright.2.2
      (fun _ _ h => h.1) fun packet base hlt => ?_
    rw [← hact _ _ hlt]
    rfl

theorem Reaches.fieldRoot (hd : Shaped taken (.op .fieldRoot t a b c))
    (ha : Reaches taken a) : Reaches taken (.op .fieldRoot t a b c) := by
  intro mask shift valueBase gs r gs' h hgs hvalue
  cases b with
  | fieldRoot root =>
      rw [descend] at h
      have hroot : root ∈ taken := hd.2.1
      have hreach := ha h hgs (.inl hroot)
      refine ⟨hreach.valid, hreach.above, hreach.known, hreach.mask,
        hreach.shift, hreach.length, hreach.length_le, fun wire base _ htight => ?_⟩
      exact hreach.value wire ⟨root, 0⟩ (hgs.listed.places_taken wire hroot)
        htight
  | _ => simp [descend] at h

theorem Reaches.offset (ha : Reaches taken a) (hb : Builds taken b) :
    Reaches taken (.op .offset t a b c) := by
  intro mask shift valueBase gs r gs' h hgs hvalue
  rw [descend, bind_eq_ok] at h
  obtain ⟨⟨n, gs₁⟩, hbuild, h⟩ := h
  have hleads := hb hbuild hgs hvalue hvalue
  have hreach := ha h hleads.valid hleads.known
  refine ⟨hreach.valid, hleads.above.trans hreach.above, hreach.known,
    hreach.mask, hreach.shift, hreach.length, hreach.length_le,
    fun wire base hplace htight => ?_⟩
  obtain ⟨⟨hnested, hleak⟩, htight⟩ := htight
  refine hreach.value wire
    { base with offset := base.offset + 8 * b.num wire.packet base } ?_ htight
  rw [hleads.place wire _ ⟨base, hplace, hnested, rfl⟩, hplace,
    Place.ofBase_add]
  apply Place.advance_congr
  omega

end

theorem reaches_builds {d : Data} (hd : Shaped taken d) :
    Reaches taken d ∧ Builds taken d := by
  induction d with
  | op dsc t a b c iha ihb ihc =>
      by_cases hplus : dsc = .plus
      · subst hplus
        refine ⟨?_, Builds.plus hd (iha hd.1).2 (ihb hd.2.1).2⟩
        intro mask shift valueBase gs r gs' h
        simp [descend] at h
      · suffices hreach : Reaches taken (.op dsc t a b c) by
          refine ⟨hreach, hreach.builds fun t' a' b' c' heq => hplus ?_⟩
          exact (Data.op.inj heq).1
        cases dsc
        case access => exact Reaches.access hd
        case shiftLeft => exact Reaches.shiftLeft hd (iha hd.1).1
        case shiftRight => exact Reaches.shiftRight (iha hd.1).1
        case and => exact Reaches.and (iha hd.1).1 (ihb hd.2.1).1
        case fieldRoot => exact Reaches.fieldRoot hd (iha hd.1).1
        case offset => exact Reaches.offset (iha hd.1).1 (ihb hd.2.1).2
        all_goals
          intro mask shift valueBase gs r gs' h
          simp [descend] at h
  | _ =>
      suffices hreach : Reaches taken _ by
        exact ⟨hreach, hreach.builds fun _ _ _ _ heq => (by cases heq)⟩
      intro mask shift valueBase gs r gs' h
      simp [descend] at h

/-! ## Whole offsets -/

section

variable {d : Data} {base valueBase n : Nat} {gs gs' : OffsetGroups}

/-- The lines stay valid, and the new group is as far from its base as the
expression and the holes of its masks are worth. -/
theorem buildOffsetGroup_leads (hd : Shaped taken d)
    (h : buildOffsetGroup taken base valueBase d gs = .ok (n, gs'))
    (hgs : gs.Valid taken) (hbase : Known taken gs.groups base)
    (hvalue : Known taken gs.groups valueBase) :
    Leads taken base gs n gs' fun wire bits =>
      let start := (places wire gs.groups valueBase).base
      NestedTight wire.packet d start ∧
        bits = 8 * d.num wire.packet start + leak wire.packet d start := by
  have hleads := (reaches_builds hd).2 h hgs hbase hvalue
  refine ⟨hleads.valid, hleads.above, hleads.known, fun wire bits hbits => ?_⟩
  exact hleads.place wire bits ⟨_, (Place.ofBase_base _).symm, hbits⟩

/-- No mask has a hole within its access. -/
def NoHoles : Data → Prop
  | .op .plus _ a b _ => NoHoles a ∧ NoHoles b
  | d => holes (accessLength d) (shown 32 (moves d)) = 0

/-- No mask in an offset within an offset has one. -/
def NestedNoHoles : Data → Prop
  | .op .access .. => True
  | .op .fieldRoot _ a _ _ => NestedNoHoles a
  | .op .offset _ a b _ => (NestedNoHoles b ∧ NoHoles b) ∧ NestedNoHoles a
  | .op _ _ a b _ => NestedNoHoles a ∧ NestedNoHoles b
  | _ => True

theorem NoHoles.leak_eq_zero {d : Data} (h : NoHoles d) (packet : Packet)
    (base : Base) : leak packet d base = 0 := by
  fun_induction leak packet d base with
  | case1 base t a b c iha ihb => rw [iha h.1, ihb h.2]
  | case2 d base hplus =>
      have hholes : holes (accessLength d) (shown 32 (moves d)) = 0 := by
        unfold NoHoles at h
        split at h
        · exact absurd rfl (hplus _ _ _ _)
        · exact h
      rw [hholes, Nat.and_zero, Nat.zero_mul, Nat.zero_div]

theorem NestedNoHoles.tight {d : Data} (h : NestedNoHoles d) (packet : Packet)
    (base : Base) : NestedTight packet d base := by
  induction d generalizing base with
  | op dsc t a b c iha ihb ihc =>
      cases dsc
      case access => trivial
      case fieldRoot => exact iha h _
      case offset =>
        obtain ⟨⟨hb, hholes⟩, ha⟩ := h
        exact ⟨⟨ihb hb base, by rw [hholes.leak_eq_zero, Nat.zero_mod]⟩, iha ha _⟩
      all_goals exact ⟨iha h.1 base, ihb h.2 base⟩
  | _ => trivial

/-- Where masks have no holes, groups are right on every packet. -/
theorem buildOffsetGroup_of_noHoles (hd : Shaped taken d)
    (h : buildOffsetGroup taken base valueBase d gs = .ok (n, gs'))
    (hgs : gs.Valid taken) (hbase : Known taken gs.groups base)
    (hvalue : Known taken gs.groups valueBase) (hholes : NoHoles d)
    (hnested : NestedNoHoles d) (wire : Wire) :
    places wire gs'.groups n = (places wire gs.groups base).advance
      (8 * d.num wire.packet (places wire gs.groups valueBase).base) := by
  have hleads := buildOffsetGroup_leads hd h hgs hbase hvalue
  rw [hleads.place wire _ ⟨hnested.tight _ _, rfl⟩, hholes.leak_eq_zero,
    Nat.add_zero]

end

/-- `raw[0].b & 5` -/
def maskWithHole : Data :=
  .op .and .unum (.op .access .unum .none (.unum 0) (.unum 8)) (.unum 5) .none

/-- The mask has bits 5 and 7 of the byte, and the field has bit 6 as well. -/
theorem maskWithHole_group :
    buildOffsetGroup [0, 1] 0 0 maskWithHole .reset =
      .ok (100, ⟨[⟨100, 0, 0, 5, 3, 3⟩], 101⟩) := by
  have hlow : dropLow 5 8 3 = (5, 8, 3) := by
    rw [dropLow]
    rfl
  have hhigh : dropHigh ((5 : BitVec 32) <<< 24) 0 8 = (5, 3) := by
    iterate 5 rw [dropHigh, if_neg (by decide)]
    rw [dropHigh]
    rfl
  have hskip : skipTaken [0, 1] OffsetGroups.reset.next = 100 := by
    rw [skipTaken]
    rfl
  have hdescend : descend [0, 1] (.allOnes 32) 3 0 maskWithHole .reset =
      .ok (⟨0, 8, 5, 3, 0⟩, .reset) := by
    rw [maskWithHole, descend, descend]
    · rfl
    · exact fun _ heq => by cases heq
  have hfield : fieldGroup [0, 1] 0 ⟨0, 8, 5, 3, 0⟩ .reset =
      .ok (lookupOffsetGroup [0, 1] 0 0 5 3 3 .reset) := by
    have hlength : (8 : BitVec 32).toInt = 8 := rfl
    have hcount : ((32 : Int) - 8).toNat = 24 := rfl
    have hoffset : (0 : BitVec 32) * 8 = 0 := rfl
    have hlength' : (8 : Int).toNat = 8 := rfl
    rw [fieldGroup, if_neg (by decide), if_neg (by decide), hlength, hlow]
    dsimp only
    rw [if_neg (by decide), if_neg (by decide), hcount, if_neg (by decide),
      hoffset, hlength', hhigh]
    rfl
  have hlookup : lookupOffsetGroup [0, 1] 0 0 5 3 3 .reset =
      (100, ⟨[⟨100, 0, 0, 5, 3, 3⟩], 101⟩) := by
    unfold lookupOffsetGroup
    rw [hskip]
    rfl
  rw [maskWithHole, buildOffsetGroup, newOffsetGroup, ← maskWithHole, hdescend]
  · exact hfield.trans (congrArg Except.ok hlookup)
  · exact fun _ _ _ _ heq => by cases heq

section

variable {d : Data} {base valueBase n : Nat} {gs gs' : OffsetGroups}

/-- The group is eight times as far from its base as the expression is worth
exactly if what the packet has in the holes of masks is worth nothing. -/
theorem buildOffsetGroup_eight_times_iff (hd : Shaped taken d)
    (h : buildOffsetGroup taken base valueBase d gs = .ok (n, gs'))
    (hgs : gs.Valid taken) (hbase : Known taken gs.groups base)
    (hvalue : Known taken gs.groups valueBase) (wire : Wire)
    (hnested : NestedTight wire.packet d
      (places wire gs.groups valueBase).base) :
    places wire gs'.groups n =
        (places wire gs.groups base).advance
          (8 * d.num wire.packet (places wire gs.groups valueBase).base) ↔
      leak wire.packet d (places wire gs.groups valueBase).base % 2 ^ 32 =
        0 := by
  have hleads := buildOffsetGroup_leads hd h hgs hbase hvalue
  rw [hleads.place wire _ ⟨hnested, rfl⟩, Place.advance_inj]
  omega

end

theorem buildOffsetGroup_eight_times_iff_hole :
    let wire : Wire := fun root p => decide (root = 0 ∧ p = 6)
    places wire [⟨100, 0, 0, 5, 3, 3⟩] 100 =
        (places wire [] 0).advance
          (8 * maskWithHole.num wire.packet (places wire [] 0).base) ↔
      leak wire.packet maskWithHole (places wire [] 0).base % 2 ^ 32 = 0 :=
  buildOffsetGroup_eight_times_iff (by simp [Shaped, maskWithHole])
    maskWithHole_group (OffsetGroups.reset_valid _) (.inl (by decide))
    (.inl (by decide)) _ ⟨trivial, trivial⟩

/-- The packet has the bit in the hole only. -/
theorem buildOffsetGroup_hole : ¬∀ (taken : List Nat) (d : Data)
    (base valueBase n : Nat) (gs gs' : OffsetGroups), Shaped taken d →
    buildOffsetGroup taken base valueBase d gs = .ok (n, gs') →
    gs.Valid taken → Known taken gs.groups base →
    Known taken gs.groups valueBase → ∀ wire : Wire,
    places wire gs'.groups n =
      (places wire gs.groups base).advance
        (8 * d.num wire.packet (places wire gs.groups valueBase).base) := by
  intro h
  have hplace := h [0, 1] maskWithHole 0 0 100 .reset _
    (by simp [Shaped, maskWithHole]) maskWithHole_group
    (OffsetGroups.reset_valid _) (.inl (by decide)) (.inl (by decide))
    (fun root p => decide (root = 0 ∧ p = 6))
  exact absurd hplace (by decide +kernel)

end Tcng.IfExt
