import Tcng.IfExt.OffsetGroupsSound

/-! How offset groups are read back, and where `match.c` finds them. -/

namespace Tcng.Ext

open Tcng.IfExt

/-- `parse_offset`; the list has the last line first. -/
def parseOffset (groups : List TccextOffset) (line : OffsetGroup) :
    Except Error (List TccextOffset) :=
  if groups.any (·.number = line.number) then
    .error (.error ("duplicate offset group " ++ toString line.number))
  else do
    let base ← findGroup groups line.base
    let fieldGroup ← findGroup groups line.valueBase
    .ok (.group line.number base fieldGroup line.offset.toNat line.length
      line.shift :: groups)

/-- A group that was found, and where it is. -/
private def Found (raw : Nat → BitVec 8) (wire : Wire)
    (lines : List OffsetGroup) (groups : List TccextOffset) : Prop :=
  ∀ {number : Nat} {group : TccextOffset} {r : BitVec 32},
    findGroup groups number = .ok group → offset raw group = .ok r →
    places wire lines number = ⟨0, r⟩

private theorem extractBits_eq {raw : Nat → BitVec 8} {start length : Nat}
    {r : BitVec 32} (h : extractBits raw start length = .ok r) :
    length ≤ 32 ∧ r.toNat = readBits (rawBit raw) start length := by
  by_cases hfits : 32 < length + start % 8
  · rw [extractBits, if_pos hfits] at h
    cases h
  · obtain ⟨r', heq, hread⟩ := extractBits_spec raw (Nat.not_lt.mp hfits)
    obtain rfl := Except.ok.inj (heq.symm.trans h)
    exact ⟨by omega, hread⟩

/-- The position is the one modulo 2 ^ 32 that is in the packet. -/
private theorem position_eq {base : BitVec 32} {offset start : Nat}
    (h : position base offset = .ok start) :
    start < 2 ^ 31 ∧ start = (base + .ofNat 32 offset).toNat := by
  unfold position at h
  dsimp only at h
  split at h
  · cases h
  · next hrange =>
      obtain rfl := Except.ok.inj h
      rw [BitVec.toNat_add, BitVec.toNat_ofNat]
      rw [BitVec.toInt_eq_toNat_cond] at hrange ⊢
      split at hrange
      · split <;> omega
      · split <;> omega

private theorem read_raw {raw : Nat → BitVec 8} {wire : Wire}
    (hwire : ∀ p, wire 0 p = rawBit raw p.toNat) {start length : Nat}
    (hstart : start < 2 ^ 31) (hlength : length ≤ 32) :
    readBits (wire.packet 0) start length =
      readBits (rawBit raw) start length := by
  rw [readBits_inj]
  intro i hi
  rw [Wire.packet, hwire, BitVec.toNat_ofNat, Nat.mod_eq_of_lt (by omega)]

private theorem Found.add {raw : Nat → BitVec 8} {wire : Wire}
    (hwire : ∀ p, wire 0 p = rawBit raw p.toNat) {lines : List OffsetGroup}
    {groups groups' : List TccextOffset} {line : OffsetGroup}
    (hfound : Found raw wire lines groups)
    (h : parseOffset groups line = .ok groups')
    (hzero : line.number ≠ 0) : Found raw wire (lines ++ [line]) groups' := by
  unfold parseOffset at h
  split at h
  · cases h
  simp only [bind_eq_ok] at h
  obtain ⟨base, hbase, fieldGroup, hfield, h⟩ := h
  obtain rfl := Except.ok.inj h
  intro number group r hfind hr
  have hrest : number ≠ line.number →
      findGroup groups number = .ok group := by
    intro hne
    rw [← hfind]
    unfold findGroup
    split
    · rfl
    split
    · rfl
    · have hskip (g : TccextOffset) (hg : g.number = line.number) :
          (g :: groups).find? (·.number = number) =
            groups.find? (·.number = number) :=
        List.find?_cons_of_neg (by simpa [hg] using hne.symm)
      rw [hskip _ rfl]
  by_cases hnumber : number = line.number
  · subst hnumber
    unfold findGroup at hfind
    rw [if_neg hzero] at hfind
    split at hfind
    · obtain rfl := Except.ok.inj hfind
      cases hr
    · rw [List.find?_cons_of_pos (by simp [TccextOffset.number])] at hfind
      obtain rfl := Except.ok.inj hfind
      simp only [offset, bind_eq_ok] at hr
      obtain ⟨rb, hrb, rf, hrf, start, hstart, bits, hbits, hr⟩ := hr
      obtain rfl := Except.ok.inj hr
      obtain ⟨hsmall, hstart⟩ := position_eq hstart
      obtain ⟨hlength, hbits⟩ := extractBits_eq hbits
      have hread : readBits (wire.packet 0)
          (rf + .ofNat 32 line.offset.toNat).toNat line.length = bits.toNat := by
        rw [hbits, ← hstart]
        exact read_raw hwire hsmall hlength
      rw [places_snoc, Function.update_self, OffsetGroup.place,
        hfound hbase hrb, hfound hfield hrf]
      dsimp only [Place.advance, Place.read]
      rw [hread, BitVec.ofNat_toNat, BitVec.setWidth_eq]
  · rw [places_snoc, Function.update_of_ne hnumber]
    exact hfound (hrest hnumber) hr

/-- Where `match.c` gets along with a group, it finds it at its place. -/
theorem offset_places {taken : List Nat} {lines : List OffsetGroup}
    (hlines : Listed taken lines) (hzero : 0 ∈ taken)
    {raw : Nat → BitVec 8} {wire : Wire}
    (hwire : ∀ p, wire 0 p = rawBit raw p.toNat) {groups : List TccextOffset}
    (hparse : lines.foldlM parseOffset [] = .ok groups) {number : Nat}
    {group : TccextOffset} (hfind : findGroup groups number = .ok group)
    {r : BitVec 32} (hr : offset raw group = .ok r) :
    places wire lines number = ⟨0, r⟩ := by
  suffices hfound : Found raw wire lines groups from hfound hfind hr
  clear hfind hr
  induction hlines generalizing groups with
  | nil =>
      obtain rfl := Except.ok.inj hparse
      intro number group r hfind hr
      unfold findGroup at hfind
      split at hfind
      · next hnumber =>
          obtain rfl := Except.ok.inj hfind
          obtain rfl := Except.ok.inj hr
          rw [hnumber]
          rfl
      split at hfind
      · obtain rfl := Except.ok.inj hfind
        cases hr
      · cases hfind
  | @snoc lines line front new base valueBase ih =>
      rw [List.foldlM_append, bind_eq_ok] at hparse
      obtain ⟨groups₀, hfront, hlast⟩ := hparse
      rw [List.foldlM_cons, bind_eq_ok] at hlast
      obtain ⟨groups₁, hlast, hdone⟩ := hlast
      obtain rfl := Except.ok.inj hdone
      refine Found.add hwire (ih hfront) hlast fun heq => new (.inl ?_)
      exact heq ▸ hzero

end Tcng.Ext
