import Mathlib.Logic.Function.Basic
import Tcng.Ext.ExtractBits
import Tcng.IfExt.OffsetGroups
import Tcng.Lib.Holes
import Tcng.Lib.MaskShift

/-! Where the lines of offset groups lead in a packet, and what the expressions
they are made of are worth. -/

namespace Tcng.IfExt

open MaskShift Holes

/-- Bits behind each field root. Like all numbers, positions have 32 bits. -/
abbrev Wire := Nat → BitVec 32 → Bool

def Wire.packet (wire : Wire) : Packet := fun root i => wire root (.ofNat 32 i)

structure Place where
  root : Nat
  position : BitVec 32
  deriving DecidableEq, Repr

namespace Place

def advance (p : Place) (n : Nat) : Place :=
  ⟨p.root, p.position + .ofNat 32 n⟩

def base (p : Place) : Base := ⟨p.root, p.position.toNat⟩

def read (wire : Wire) (p : Place) (length : Nat) : Nat :=
  readBits (wire.packet p.root) p.position.toNat length

theorem advance_advance (p : Place) (m n : Nat) :
    (p.advance m).advance n = p.advance (m + n) := by
  rw [advance, advance, advance, BitVec.ofNat_add, BitVec.add_assoc]

theorem advance_congr (p : Place) {m n : Nat} (h : m % 2 ^ 32 = n % 2 ^ 32) :
    p.advance m = p.advance n := by
  have hofNat : BitVec.ofNat 32 m = .ofNat 32 n := by
    apply BitVec.eq_of_toNat_eq
    rw [BitVec.toNat_ofNat, BitVec.toNat_ofNat, h]
  rw [advance, advance, hofNat]

theorem advance_inj {p : Place} {m n : Nat} :
    p.advance m = p.advance n ↔ m % 2 ^ 32 = n % 2 ^ 32 := by
  refine ⟨fun h => ?_, p.advance_congr⟩
  have hposition := congrArg Place.position h
  have hofNat := (BitVec.add_right_inj _).mp hposition
  exact (BitVec.toNat_ofNat _ _).symm.trans
    ((congrArg BitVec.toNat hofNat).trans (BitVec.toNat_ofNat _ _))

@[simp] theorem advance_root (p : Place) (n : Nat) :
    (p.advance n).root = p.root := rfl

end Place

/-! ## Lines -/

/-- `base + (field << shift)` -/
def OffsetGroup.place (wire : Wire) (places : Nat → Place) (g : OffsetGroup) :
    Place :=
  let field := ((places g.valueBase).advance g.offset.toNat).read wire g.length
  ⟨(places g.base).root,
    (places g.base).position + BitVec.ofNat 32 field <<< g.shift⟩

/-- Each line adds to groups above it; all other groups are field roots. -/
def places (wire : Wire) (groups : List OffsetGroup) : Nat → Place :=
  groups.foldl
    (fun places g => Function.update places g.number (g.place wire places))
    fun root => ⟨root, 0⟩

/-! ## Expressions -/

/-- The steps from the access to the value, the last one first. -/
def moves : Data → List Step
  | .op .shiftLeft _ a (.unum n) _ => .left n.toNat :: moves a
  | .op .shiftRight _ a (.unum n) _ => .right n.toNat :: moves a
  | .op .and _ (.unum n) b _ => .mask n.toNat :: moves b
  | .op .and _ a (.unum n) _ => .mask n.toNat :: moves a
  | .op .fieldRoot _ a _ _ | .op .offset _ a _ _ => moves a
  | _ => []

def accessLength : Data → Nat
  | .op .access _ _ _ (.unum length) => length.toNat
  | .op .and _ (.unum _) b _ => accessLength b
  | .op .shiftLeft _ a _ _ | .op .shiftRight _ a _ _ | .op .and _ a _ _
  | .op .fieldRoot _ a _ _ | .op .offset _ a _ _ => accessLength a
  | _ => 0

/-- What the access finds in the packet. -/
def accessed (packet : Packet) : Data → Base → Nat
  | .op .access t a b c, base => (Data.op .access t a b c).num packet base
  | .op .and _ (.unum _) b _, base => accessed packet b base
  | .op .shiftLeft _ a _ _, base | .op .shiftRight _ a _ _, base
  | .op .and _ a _ _, base => accessed packet a base
  | .op .fieldRoot _ a b _, base => accessed packet a ⟨b.rootOr base.root, 0⟩
  | .op .offset _ a b _, base =>
      accessed packet a
        { base with offset := base.offset + 8 * b.num packet base }
  | _, _ => 0

/-- Eight times what the bits in the holes of the masks would be worth. -/
def leak (packet : Packet) : Data → Base → Nat
  | .op .plus _ a b _, base => leak packet a base + leak packet b base
  | d, base =>
      8 * ((accessed packet d base &&&
        holes (accessLength d) (shown 32 (moves d))) * 2 ^ lefts (moves d) /
          2 ^ rights (moves d))

/-- Offsets within offsets leak nothing. -/
def NestedTight (packet : Packet) : Data → Base → Prop
  | .op .access .., _ => True
  | .op .fieldRoot _ a b _, base => NestedTight packet a ⟨b.rootOr base.root, 0⟩
  | .op .offset _ a b _, base =>
      (NestedTight packet b base ∧ leak packet b base % 2 ^ 32 = 0) ∧
        NestedTight packet a
          { base with offset := base.offset + 8 * b.num packet base }
  | .op _ _ a b _, base => NestedTight packet a base ∧ NestedTight packet b base
  | _, _ => True

/-- What `iflib_offset` leaves of an index of type `dt_unum`: accesses have no
field root of their own, and a size of the parser other than `ipv6`. -/
def Shaped (taken : List Nat) : Data → Prop
  | .op .access _ a _ c => a = .none ∧ ∀ length, c = .unum length → length ≤ 32
  | .op _ _ a b c => Shaped taken a ∧ Shaped taken b ∧ Shaped taken c
  | .fieldRoot root => root ∈ taken
  | .ipv6 _ => False
  | _ => True

/-! ## Invariants -/

section

variable (taken : List Nat)

/-- A group of a field root or of a line. -/
def Known (groups : List OffsetGroup) (number : Nat) : Prop :=
  number ∈ taken ∨ ∃ g ∈ groups, g.number = number

/-- Lines refer to what is above them. -/
inductive Listed : List OffsetGroup → Prop
  | nil : Listed []
  | snoc {groups : List OffsetGroup} {g : OffsetGroup} (front : Listed groups)
      (new : ¬Known taken groups g.number) (base : Known taken groups g.base)
      (valueBase : Known taken groups g.valueBase) : Listed (groups ++ [g])

structure OffsetGroups.Valid (gs : OffsetGroups) : Prop where
  listed : Listed taken gs.groups
  lt : ∀ g ∈ gs.groups, g.number < gs.next

theorem OffsetGroups.reset_valid : OffsetGroups.reset.Valid taken :=
  ⟨.nil, fun _ hg => nomatch hg⟩

end

variable {taken : List Nat}

theorem Known.mono {groups groups' : List OffsetGroup} {number : Nat}
    (h : Known taken groups number) (hextends : groups <+: groups') :
    Known taken groups' number := by
  obtain htaken | ⟨g, hg, hnumber⟩ := h
  · exact .inl htaken
  · exact .inr ⟨g, hextends.subset hg, hnumber⟩

theorem places_snoc (wire : Wire) (groups : List OffsetGroup)
    (g : OffsetGroup) : places wire (groups ++ [g]) =
      Function.update (places wire groups) g.number
        (g.place wire (places wire groups)) := by
  rw [places, List.foldl_append]
  rfl

theorem places_snoc_known (wire : Wire) {groups : List OffsetGroup}
    {g : OffsetGroup} {number : Nat} (h : Known taken groups number)
    (hnew : ¬Known taken groups g.number) :
    places wire (groups ++ [g]) number = places wire groups number := by
  rw [places_snoc]
  refine Function.update_of_ne (fun heq : number = g.number => hnew ?_) _ _
  exact heq ▸ h

/-- Lines below do not move a group. -/
theorem Listed.places_prefix {groups groups' : List OffsetGroup}
    (h : Listed taken groups') (hextends : groups <+: groups') (wire : Wire)
    {number : Nat} (hknown : Known taken groups number) :
    places wire groups' number = places wire groups number := by
  induction h with
  | nil => rw [List.prefix_nil.mp hextends]
  | @snoc groups' g front new base valueBase ih =>
      obtain heq | hfront := List.prefix_concat_iff.mp hextends
      · rw [heq]
      · rw [places_snoc_known wire (hknown.mono hfront) new, ih hfront]

theorem Listed.refers {groups : List OffsetGroup} (h : Listed taken groups)
    {g : OffsetGroup} (hg : g ∈ groups) :
    Known taken groups g.base ∧ Known taken groups g.valueBase := by
  induction h with
  | nil => cases hg
  | @snoc groups last front new base valueBase ih =>
      have hextends : groups <+: groups ++ [last] := List.prefix_append _ _
      obtain hold | hlast := List.mem_append.mp hg
      · exact (ih hold).imp (·.mono hextends) (·.mono hextends)
      · obtain rfl := List.mem_singleton.mp hlast
        exact ⟨base.mono hextends, valueBase.mono hextends⟩

/-- Every line says where its group is. -/
theorem Listed.places_line {groups : List OffsetGroup}
    (h : Listed taken groups) (wire : Wire) {g : OffsetGroup}
    (hg : g ∈ groups) :
    places wire groups g.number = g.place wire (places wire groups) := by
  induction h with
  | nil => cases hg
  | @snoc groups last front new base valueBase ih =>
      have hplace (line : OffsetGroup) (hbase : Known taken groups line.base)
          (hvalue : Known taken groups line.valueBase) :
          line.place wire (places wire (groups ++ [last])) =
            line.place wire (places wire groups) := by
        simp only [OffsetGroup.place, places_snoc_known wire hbase new,
          places_snoc_known wire hvalue new]
      obtain hold | hlast := List.mem_append.mp hg
      · obtain ⟨hbase, hvalue⟩ : Known taken groups g.base ∧
            Known taken groups g.valueBase := front.refers hold
        rw [places_snoc_known wire (.inr ⟨g, hold, rfl⟩) new, ih hold,
          hplace g hbase hvalue]
      · obtain rfl := List.mem_singleton.mp hlast
        rw [hplace g base valueBase, places_snoc, Function.update_self]

end Tcng.IfExt
