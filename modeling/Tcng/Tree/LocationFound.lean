import Mathlib.Data.List.Dedup
import Mathlib.Data.List.Nodup
import Tcng.Tree.LocationMap

/-! Which lines of the location map lead back to the object they were printed
for. -/

namespace Tcng

variable {Q C : Type}

mutual

/-- The qdiscs at and below one in the order of the walk, each with its
classes. -/
def Qdisc.nodes : Qdisc Q C → List (Q × Classes Q C)
  | .null => []
  | .qdisc info classes => (info, classes) :: classes.nodes

def Classes.nodes : Classes Q C → List (Q × Classes Q C)
  | .null => []
  | .class _ qdisc child next => qdisc.nodes ++ (child.nodes ++ next.nodes)

end

/-- The classes of one qdisc. -/
def Classes.own (t : Classes Q C) : List C := t.members.map Prod.fst

@[simp] theorem Classes.own_null : (Classes.null : Classes Q C).own = [] := rfl

@[simp] theorem Classes.own_class (info : C) (qdisc : Qdisc Q C)
    (child next : Classes Q C) :
    (Classes.class info qdisc child next).own =
      info :: (child.own ++ next.own) := by
  simp [own, members]

namespace LocationMap

variable {L : Type}

/-! ## Conditions -/

/-- `x` is the first of the list to satisfy `p`. -/
def First {α : Type} (p : α → Prop) (l : List α) (x : α) : Prop :=
  p x ∧ ∃ before after, l = before ++ x :: after ∧ ∀ y ∈ before, ¬p y

def Device.Identified (devices : List (Device L)) (dev : Device L) : Prop :=
  ':' ∉ dev.name ∧ First (fun other => other.name = dev.name) devices dev

def QdiscAt.node (q : QdiscAt L) : QdiscInfo L × ClassTree L :=
  (q.info, q.classes)

def QdiscAt.Identified (devices : List (Device L)) (q : QdiscAt L) : Prop :=
  q.device.Identified devices ∧
    if q.info.ingress then top q.device.ingress = some q.node
    else First (fun other => other.1.number = q.info.number)
      q.device.egress.nodes q.node

def ClassAt.Identified (devices : List (Device L)) (c : ClassAt L) : Prop :=
  c.qdisc.Identified devices ∧ c.info.number ≠ undefU32 ∧
    First (fun other => other.number = c.info.number) c.qdisc.classes.own c.info

def FilterParent.Identified (devices : List (Device L)) :
    FilterParent L → Prop
  | .qdisc q => q.Identified devices
  | .class c => c.Identified devices

def FilterParent.filters : FilterParent L → List (Filter L)
  | .qdisc q => q.info.filters
  | .class c => c.info.filters

def FilterAt.Identified (devices : List (Device L)) (f : FilterAt L) : Prop :=
  f.parent.Identified devices ∧
    First (fun other => other.number = f.filter.number) f.parent.filters
      f.filter

/-- The object is the one that its own identifier leads to: its parents are,
it has a number (an element the number of its position), and no object that is
looked at earlier has the same number. -/
def Object.Identified (config : Config L) : Object L → Prop
  | .device dev => dev.Identified config.devices
  | .qdisc q => q.Identified config.devices
  | .class c => c.Identified config.devices
  | .filter f => f.Identified config.devices
  | .element f n e =>
      f.Identified config.devices ∧
        First (fun other => other.number = .ofNat 32 n) f.filter.elements e
  | .tunnel f t =>
      f.Identified config.devices ∧
        First (fun other => other.number = t.number)
          (f.filter.elements.filterMap (·.tunnel)) t
  | .police p =>
      First (fun other => other.number = p.number) config.policers p

/-! ## Addresses -/

def Device.nodes (dev : Device L) : List (QdiscInfo L × ClassTree L) :=
  dev.ingress.nodes ++ dev.egress.nodes

def QdiscOrClass.location : QdiscOrClass L → L
  | .qdisc q => q.location
  | .class c => c.location

/-- A qdisc and its classes. -/
def parents (q : QdiscInfo L × ClassTree L) : List (QdiscOrClass L) :=
  .qdisc q.1 :: q.2.own.map .class

section

variable [DecidableEq L]

/-- Several elements may lead to one tunnel. -/
def Filter.locations (f : Filter L) : List L :=
  f.location :: (f.elements.map (·.location) ++
    ((f.elements.filterMap (·.tunnel)).map (·.location)).dedup)

def QdiscOrClass.locations (parent : QdiscOrClass L) : List L :=
  parent.location :: parent.filters.flatMap Filter.locations

def Device.locations (dev : Device L) : List L :=
  dev.location ::
    dev.nodes.flatMap fun q => (parents q).flatMap QdiscOrClass.locations

def Config.locations (config : Config L) : List L :=
  config.devices.flatMap Device.locations ++
    config.policers.map (·.location)

end

/-- No two objects are at one address. -/
structure PlacedConfig (L : Type) [DecidableEq L] extends Config L where
  distinct : toConfig.locations.Nodup

private theorem eq_of_mem_flatMap {α β : Type} {f : α → List β} {l : List α}
    (h : (l.flatMap f).Nodup) {x y : α} (hx : x ∈ l) (hy : y ∈ l) {b : β}
    (hbx : b ∈ f x) (hby : b ∈ f y) : x = y := by
  by_contra hne
  have hpair := (List.nodup_flatMap.mp h).2
  have hsymm : Std.Symm (Function.onFun List.Disjoint f) :=
    ⟨fun _ _ hd => hd.symm⟩
  exact hpair.forall hx hy hne hbx hby

private theorem nodup_of_mem_flatMap {α β : Type} {f : α → List β}
    {l : List α} (h : (l.flatMap f).Nodup) {x : α} (hx : x ∈ l) :
    (f x).Nodup :=
  (List.nodup_flatMap.mp h).1 x hx

/-! ## Results of lookups -/

namespace Lookup

variable {α β : Type}

@[simp] theorem bind_eq_found {x : Lookup α} {f : α → Lookup β} {y : β} :
    (x >>= f) = .found y ↔ ∃ a, x = .found a ∧ f a = .found y := by
  cases x with
  | crash => exact ⟨nofun, nofun⟩
  | null => exact ⟨nofun, nofun⟩
  | found a =>
      constructor
      · intro h
        exact ⟨a, rfl, h⟩
      · rintro ⟨_, h, h'⟩
        cases h
        exact h'

@[simp] theorem pure_eq_found {x y : α} :
    (pure x : Lookup α) = .found y ↔ x = y := by
  constructor
  · intro h
    cases h
    rfl
  · rintro rfl
    rfl

@[simp] theorem ofOption_eq_found {x : Option α} {y : α} :
    ofOption x = .found y ↔ x = some y := by
  cases x <;> simp [ofOption]

@[simp] theorem follow_eq_found {x : Option α} {y : α} :
    follow x = .found y ↔ x = some y := by
  cases x <;> simp [follow]

end Lookup

@[simp] theorem scanChar_eq_found {c : Char} {id rest : List Char} :
    scanChar c id = .found rest ↔ id = c :: rest := by
  cases id with
  | nil => simp [scanChar]
  | cons c' id => grind [scanChar]

@[simp] theorem atEnd_eq_found {id : List Char} {u : Unit} :
    atEnd id = .found u ↔ id = [] := by
  cases id <;> simp [atEnd]

private theorem find?_eq_some_iff {α : Type} {p : α → Prop} [DecidablePred p]
    {l : List α} {x : α} :
    l.find? (fun y => decide (p y)) = some x ↔ First p l x := by
  rw [List.find?_eq_some_iff_append]
  simp [First]

private theorem First.mem {α : Type} {p : α → Prop} {l : List α} {x : α}
    (h : First p l x) : x ∈ l := by
  obtain ⟨-, before, after, rfl, -⟩ := h
  simp

/-! ## Numbers -/

/-- Nothing, or a colon, comes next. -/
def Ended (rest : List Char) : Prop := ∀ c ∈ rest.head?, c = ':'

private theorem ended_nil : Ended [] := by simp [Ended]

private theorem ended_colon (rest : List Char) : Ended (':' :: rest) := by
  simp [Ended]

private theorem scanNumberFrom_ended {rest : List Char} (h : Ended rest)
    (res : BitVec 32) : scanNumberFrom true res rest = some (res, rest) := by
  cases rest with
  | nil => rfl
  | cons c rest =>
      have hc : c = ':' := h c rfl
      simp [scanNumberFrom, hc]

private theorem scanNumberFrom_digits {rest : List Char} (h : Ended rest)
    (digits : List Char) (hdigits : ∀ c ∈ digits, c.isDigit = true)
    (ok : Bool) (hok : digits = [] → ok = true) (res : Nat) :
    scanNumberFrom ok (.ofNat 32 res) (digits ++ rest) =
      some (.ofNat 32 (Nat.ofDigitChars 10 digits res), rest) := by
  induction digits generalizing ok res with
  | nil =>
      obtain rfl := hok rfl
      simpa using scanNumberFrom_ended h _
  | cons c digits ih =>
      have hc := hdigits c (by simp)
      have hcolon : c ≠ ':' := by
        rintro rfl
        exact absurd hc (by decide)
      have hge : 48 ≤ c.toNat := by
        simp only [Char.isDigit, Bool.and_eq_true, decide_eq_true_eq] at hc
        exact hc.1
      have hnext : BitVec.ofNat 32 res * 10 + .ofNat 32 c.toNat -
          .ofNat 32 '0'.toNat =
          BitVec.ofNat 32 (10 * res + (c.toNat - '0'.toNat)) := by
        have hzero : '0'.toNat = 48 := rfl
        rw [hzero]
        apply BitVec.eq_of_toNat_eq
        simp [BitVec.toNat_sub, BitVec.toNat_add, BitVec.toNat_mul]
        omega
      rw [List.cons_append, scanNumberFrom, if_neg hcolon, if_pos hc, hnext,
        ih (fun c hc => hdigits c (by simp [hc])) true (fun _ => rfl),
        Nat.ofDigitChars_cons]

private theorem scanNumber_toDigits {rest : List Char} (h : Ended rest)
    (n : Nat) :
    scanNumber (Nat.toDigits 10 n ++ rest) = .found (.ofNat 32 n, rest) := by
  have hdigits := scanNumberFrom_digits h (Nat.toDigits 10 n)
    (fun c hc => Nat.isDigit_of_mem_toDigits (by decide) (by decide) hc) false
    (fun h => absurd h Nat.toDigits_ne_nil) 0
  rw [Nat.ofDigitChars_ten_toDigits] at hdigits
  simpa [scanNumber] using hdigits

private theorem scanNumber_unsigned {rest : List Char} (h : Ended rest)
    (n : BitVec 32) :
    scanNumber (unsigned n ++ rest) = .found (n, rest) := by
  simpa [unsigned] using scanNumber_toDigits h n.toNat

/-- Digits start with a digit. -/
private theorem unsigned_eq_cons (n : BitVec 32) :
    ∃ c digits, unsigned n = c :: digits ∧ c.isDigit = true := by
  cases hd : unsigned n with
  | nil => exact absurd hd Nat.toDigits_ne_nil
  | cons c digits =>
      have hmem : c ∈ Nat.toDigits 10 n.toNat := by
        rw [← unsigned, hd]
        exact List.mem_cons_self
      exact ⟨c, digits, rfl,
        Nat.isDigit_of_mem_toDigits (by decide) (by decide) hmem⟩

/-! ## Searches -/

private theorem scanDevice_eq_some {devices : List (Device L)}
    {id rest : List Char} {dev : Device L} :
    scanDevice devices id = (some dev, rest) ↔
      dev.Identified devices ∧ id = dev.name ++ rest ∧ Ended rest := by
  constructor
  · intro h
    simp only [scanDevice] at h
    split at h
    · next found hfound =>
        cases h
        have hfirst := find?_eq_some_iff.mp hfound
        have hname : dev.name = id.takeWhile (· ≠ ':') := hfirst.1
        have hrest : id.drop (id.takeWhile (· ≠ ':')).length =
            id.dropWhile (· ≠ ':') := by
          have happend := List.takeWhile_append_dropWhile
            (p := fun c => decide (c ≠ ':')) (l := id)
          calc id.drop (id.takeWhile (· ≠ ':')).length
            _ = (id.takeWhile (· ≠ ':') ++ id.dropWhile (· ≠ ':')).drop
                (id.takeWhile (· ≠ ':')).length := by rw [happend]
            _ = id.dropWhile (· ≠ ':') := List.drop_left
        rw [hrest, hname]
        refine ⟨⟨?_, ?_⟩, ?_, ?_⟩
        · intro hcolon
          rw [hname] at hcolon
          have hne := List.all_takeWhile
            (p := fun c => decide (c ≠ ':')) (l := id)
          simpa using List.all_eq_true.mp hne ':' hcolon
        · rwa [hname]
        · exact (List.takeWhile_append_dropWhile).symm
        · intro c hc
          have hnot := List.head?_dropWhile_not (· ≠ ':') id
          rw [hc] at hnot
          simpa using hnot
    · cases h
  · rintro ⟨⟨hcolon, hfirst⟩, rfl, hended⟩
    have htake : (dev.name ++ rest).takeWhile (· ≠ ':') = dev.name := by
      rw [List.takeWhile_append_of_pos]
      · cases rest with
        | nil => simp
        | cons c rest =>
            have hc : c = ':' := hended c rfl
            simp [hc]
      · intro c hc
        simp only [decide_eq_true_eq]
        rintro rfl
        exact hcolon hc
    have hfind := find?_eq_some_iff.mpr hfirst
    simp only [scanDevice, htake, hfind, List.drop_left]

mutual

private theorem findQdisc_eq (num : BitVec 32) (t : QdiscTree L) :
    findQdisc num t = t.nodes.find? (fun q => q.1.number = num) := by
  cases t with
  | null => rfl
  | qdisc info classes =>
      rw [findQdisc, Qdisc.nodes, List.find?_cons,
        findQdiscInClasses_eq num classes]
      by_cases h : info.number = num <;> simp [h]

private theorem findQdiscInClasses_eq (num : BitVec 32) (t : ClassTree L) :
    findQdiscInClasses num t = t.nodes.find? (fun q => q.1.number = num) := by
  cases t with
  | null => rfl
  | «class» info qdisc child next =>
      rw [findQdiscInClasses, Classes.nodes, List.find?_append,
        List.find?_append, findQdisc_eq num qdisc,
        findQdiscInClasses_eq num child, findQdiscInClasses_eq num next]
      simp only [Option.orElse_eq_orElse, Option.orElse_eq_or]

end

private theorem findQdisc_eq_some {num : BitVec 32} {t : QdiscTree L}
    {q : QdiscInfo L × ClassTree L} :
    findQdisc num t = some q ↔
      First (fun other => other.1.number = num) t.nodes q := by
  rw [findQdisc_eq, find?_eq_some_iff]

private theorem findClass_eq (num : BitVec 32) (t : ClassTree L) :
    findClass num t = t.own.find? (fun c => c.number = num) := by
  match t with
  | .null => rfl
  | .class info qdisc child next =>
      rw [findClass, Classes.own_class, List.find?_cons, List.find?_append,
        findClass_eq num child, findClass_eq num next]
      by_cases h : info.number = num
      · simp [h]
      · simp [h]

private theorem findClass_eq_some {num : BitVec 32} {t : ClassTree L}
    {c : ClassInfo L} :
    findClass num t = some c ↔
      First (fun other => other.number = num) t.own c := by
  rw [findClass_eq, find?_eq_some_iff]

private theorem scanIngress_eq_some {id rest : List Char} :
    scanIngress id = some rest ↔
      id = "ingress".toList ++ rest ∧ Ended rest := by
  constructor
  · intro h
    rw [scanIngress] at h
    split at h
    · next hbegins =>
        obtain ⟨after, rfl⟩ := List.isPrefixOf_iff_prefix.mp hbegins
        have hafter : ("ingress".toList ++ after).drop 7 = after := rfl
        rw [hafter] at h
        cases after with
        | nil =>
            cases h
            exact ⟨rfl, ended_nil⟩
        | cons c after =>
            dsimp only at h
            split at h
            · next hc =>
                subst hc
                cases h
                exact ⟨rfl, ended_colon after⟩
            · cases h
    · cases h
  · rintro ⟨rfl, hended⟩
    have hbegins : "ingress".toList.isPrefixOf ("ingress".toList ++ rest) :=
      List.isPrefixOf_iff_prefix.mpr (List.prefix_append _ _)
    have hrest : ("ingress".toList ++ rest).drop 7 = rest := rfl
    rw [scanIngress, if_pos hbegins, hrest]
    cases rest with
    | nil => rfl
    | cons c rest =>
        have hc : c = ':' := hended c rfl
        simp [hc]

private theorem scanIngress_unsigned (n : BitVec 32) (rest : List Char) :
    scanIngress (unsigned n ++ rest) = none := by
  obtain ⟨c, digits, hdigits, hc⟩ := unsigned_eq_cons n
  rw [Option.eq_none_iff_forall_ne_some]
  intro id h
  have hid := (scanIngress_eq_some.mp h).1
  rw [hdigits] at hid
  obtain rfl : c = 'i' := by
    simpa using congrArg List.head? hid
  exact absurd hc (by decide)

private theorem first_top {p : QdiscInfo L × ClassTree L → Prop}
    {t : QdiscTree L} {q : QdiscInfo L × ClassTree L}
    (h : First p t.nodes q) : ∃ q', top t = some q' := by
  cases t with
  | null => exact absurd h.mem (by simp [Qdisc.nodes])
  | qdisc info classes => exact ⟨_, rfl⟩

private theorem top_mem {t : QdiscTree L} {q : QdiscInfo L × ClassTree L}
    (h : top t = some q) : q ∈ t.nodes := by
  cases t with
  | null => cases h
  | qdisc info classes =>
      cases h
      simp [Qdisc.nodes]

private theorem scanQdisc_eq_found {devices : List (Device L)}
    {id rest : List Char} {q : QdiscInfo L × ClassTree L} :
    scanQdisc devices id = .found (q, rest) ↔
      ∃ (dev : Device L) (tail : List Char),
        dev.Identified devices ∧ id = dev.name ++ ':' :: tail ∧
        ((scanIngress tail = some rest ∧ top dev.ingress = some q) ∨
          (scanIngress tail = none ∧ ∃ num,
            scanNumber tail = .found (num, rest) ∧
            First (fun other => other.1.number = num) dev.egress.nodes q)) := by
  constructor
  · intro h
    simp only [scanQdisc] at h
    cases hdev : scanDevice devices id with
    | mk found tail =>
        rw [hdev] at h
        simp only [Lookup.bind_eq_found, scanChar_eq_found] at h
        obtain ⟨tail, rfl, h⟩ := h
        cases hingress : scanIngress tail with
        | some after =>
            simp only [hingress, Lookup.bind_eq_found, Lookup.follow_eq_found,
              Lookup.ofOption_eq_found, Lookup.pure_eq_found] at h
            obtain ⟨dev, rfl, q', hq', h⟩ := h
            cases h
            obtain ⟨hidentified, hid, -⟩ := scanDevice_eq_some.mp hdev
            exact ⟨dev, tail, hidentified, hid, .inl ⟨hingress, hq'⟩⟩
        | none =>
            simp only [hingress, Lookup.bind_eq_found, Lookup.follow_eq_found,
              Lookup.ofOption_eq_found, Lookup.pure_eq_found] at h
            obtain ⟨⟨num, after⟩, hnum, dev, rfl, _, -, q', hq', h⟩ := h
            cases h
            obtain ⟨hidentified, hid, -⟩ := scanDevice_eq_some.mp hdev
            exact ⟨dev, tail, hidentified, hid,
              .inr ⟨hingress, num, hnum, findQdisc_eq_some.mp hq'⟩⟩
  · rintro ⟨dev, tail, hidentified, rfl, hcase⟩
    have hdev := scanDevice_eq_some.mpr
      ⟨hidentified, rfl, ended_colon tail⟩
    simp only [scanQdisc, hdev, Lookup.bind_eq_found, scanChar_eq_found]
    refine ⟨tail, rfl, ?_⟩
    rcases hcase with ⟨hingress, htop⟩ | ⟨hingress, num, hnum, hfirst⟩
    · simp [hingress, htop]
    · obtain ⟨q', htop⟩ := first_top hfirst
      simp only [hingress, Lookup.bind_eq_found, Lookup.follow_eq_found,
        Lookup.ofOption_eq_found, Lookup.pure_eq_found]
      exact ⟨_, hnum, dev, rfl, q', htop, q, findQdisc_eq_some.mpr hfirst, rfl⟩

/-! ## Identifiers of parents -/

/-- The object is where its parents say. -/
def QdiscAt.Within (devices : List (Device L)) (q : QdiscAt L) : Prop :=
  q.device ∈ devices ∧ q.node ∈ q.device.nodes

def ClassAt.Within (devices : List (Device L)) (c : ClassAt L) : Prop :=
  c.qdisc.Within devices ∧ c.info ∈ c.qdisc.classes.own

def FilterParent.Within (devices : List (Device L)) : FilterParent L → Prop
  | .qdisc q => q.Within devices
  | .class c => c.Within devices

def FilterAt.Within (devices : List (Device L)) (f : FilterAt L) : Prop :=
  f.parent.Within devices ∧ f.filter ∈ f.parent.filters

/-- What is found for the parent of a filter. -/
def FilterParent.target : FilterParent L → QdiscOrClass L
  | .qdisc q => .qdisc q.info
  | .class c => .class c.info

private theorem scanQdisc_within {devices : List (Device L)}
    {id rest : List Char} {q : QdiscInfo L × ClassTree L}
    (h : scanQdisc devices id = .found (q, rest)) :
    ∃ dev, QdiscAt.Within devices ⟨dev, q.1, q.2⟩ := by
  obtain ⟨dev, tail, hidentified, -, hcase⟩ := scanQdisc_eq_found.mp h
  refine ⟨dev, hidentified.2.mem, List.mem_append.mpr ?_⟩
  rcases hcase with ⟨-, htop⟩ | ⟨-, num, -, hfirst⟩
  · exact .inl (top_mem htop)
  · exact .inr hfirst.mem

/-- What the second part of `scan_qdisc_or_class` does. -/
private theorem scanQdiscOrClass_eq_found {devices : List (Device L)}
    {id rest : List Char} {parent : QdiscOrClass L} :
    scanQdiscOrClass devices id = .found (parent, rest) ↔
      ∃ q tail, scanQdisc devices id = .found (q, ':' :: tail) ∧
        ((∃ after, tail = ':' :: after ∧ rest = tail ∧
            parent = .qdisc q.1) ∨
          ((∀ after, tail ≠ ':' :: after) ∧ ∃ num c,
            scanNumber tail = .found (num, rest) ∧
            First (fun other => other.number = num) q.2.own c ∧
            parent = .class c)) := by
  simp only [scanQdiscOrClass, Lookup.bind_eq_found, Prod.exists]
  constructor
  · rintro ⟨info, classes, tail, hq, tail, hcolon, h⟩
    rw [scanChar_eq_found] at hcolon
    subst hcolon
    refine ⟨info, classes, tail, hq, ?_⟩
    split at h
    · next after =>
        simp only [Lookup.pure_eq_found, Prod.mk.injEq] at h
        exact .inl ⟨after, rfl, h.2.symm, h.1.symm⟩
    · next hnot =>
        simp only [Lookup.bind_eq_found, Lookup.ofOption_eq_found,
          Lookup.pure_eq_found, Prod.mk.injEq, Prod.exists] at h
        obtain ⟨num, after, hnum, c, hc, rfl, rfl⟩ := h
        refine .inr ⟨fun after' heq => hnot after' heq, num, c, hnum,
          findClass_eq_some.mp hc, rfl⟩
  · rintro ⟨info, classes, tail, hq, hcase⟩
    refine ⟨info, classes, ':' :: tail, hq, tail, ?_, ?_⟩
    · simp
    · rcases hcase with ⟨after, rfl, rfl, rfl⟩ |
        ⟨hnot, num, c, hnum, hfirst, rfl⟩
      · simp
      · split
        · next after => exact absurd rfl (hnot after)
        · simp only [Lookup.bind_eq_found, Lookup.ofOption_eq_found,
            Lookup.pure_eq_found, Prod.mk.injEq, Prod.exists]
          exact ⟨num, rest, hnum, c, findClass_eq_some.mpr hfirst, rfl, rfl⟩

private theorem scanQdiscOrClass_within {devices : List (Device L)}
    {id rest : List Char} {found : QdiscOrClass L}
    (h : scanQdiscOrClass devices id = .found (found, rest)) :
    ∃ parent : FilterParent L, parent.Within devices ∧
      parent.target = found := by
  obtain ⟨q, tail, hq, hcase⟩ := scanQdiscOrClass_eq_found.mp h
  obtain ⟨dev, hwithin⟩ := scanQdisc_within hq
  rcases hcase with ⟨after, -, -, rfl⟩ | ⟨-, num, c, -, hfirst, rfl⟩
  · exact ⟨.qdisc ⟨dev, q.1, q.2⟩, hwithin, rfl⟩
  · exact ⟨.class ⟨⟨dev, q.1, q.2⟩, c⟩, ⟨hwithin, hfirst.mem⟩, rfl⟩

private theorem target_filters (parent : FilterParent L) :
    parent.target.filters = parent.filters := by
  cases parent <;> rfl

private theorem scanFilter_eq_found {devices : List (Device L)}
    {id rest : List Char} {f : Filter L} :
    scanFilter devices id = .found (f, rest) ↔
      ∃ found tail num, scanQdiscOrClass devices id =
          .found (found, ':' :: tail) ∧
        scanNumber tail = .found (num, rest) ∧
        First (fun other => other.number = num) found.filters f := by
  simp only [scanFilter, Lookup.bind_eq_found, scanChar_eq_found,
    Lookup.ofOption_eq_found, Lookup.pure_eq_found, Prod.exists,
    Prod.mk.injEq, find?_eq_some_iff]
  constructor
  · rintro ⟨found, _, hfound, tail, rfl, num, _, hnum, _, hfirst, rfl, rfl⟩
    exact ⟨found, tail, num, hfound, hnum, hfirst⟩
  · rintro ⟨found, tail, num, hfound, hnum, hfirst⟩
    exact ⟨found, _, hfound, tail, rfl, num, rest, hnum, f, hfirst, rfl, rfl⟩

private theorem scanFilter_within {devices : List (Device L)}
    {id rest : List Char} {f : Filter L}
    (h : scanFilter devices id = .found (f, rest)) :
    ∃ f' : FilterAt L, f'.Within devices ∧ f'.filter = f := by
  obtain ⟨found, tail, num, hfound, -, hfirst⟩ := scanFilter_eq_found.mp h
  obtain ⟨parent, hparent, rfl⟩ := scanQdiscOrClass_within hfound
  rw [target_filters] at hfirst
  exact ⟨⟨parent, f⟩, ⟨hparent, hfirst.mem⟩, rfl⟩

private theorem scanMember_within {config : Config L} {id : List Char}
    {f : Filter L} {num : BitVec 32}
    (h : scanMember config id = .found (f, num)) :
    ∃ f' : FilterAt L, f'.Within config.devices ∧ f'.filter = f := by
  simp only [scanMember, Lookup.bind_eq_found, Lookup.pure_eq_found,
    Prod.exists, Prod.mk.injEq] at h
  obtain ⟨_, _, hscan, _, _, _, _, _, _, _, rfl, -⟩ := h
  exact scanFilter_within hscan

section

variable [DecidableEq L] (config : PlacedConfig L)

/-- One address leads to one device, one qdisc of it, and that qdisc or one of
its classes. -/
private theorem parent_unique {q q' : QdiscAt L}
    (hq : q.Within config.devices) (hq' : q'.Within config.devices)
    {parent parent' : QdiscOrClass L} (hparent : parent ∈ parents q.node)
    (hparent' : parent' ∈ parents q'.node) {l : L}
    (hl : l ∈ parent.locations) (hl' : l ∈ parent'.locations) :
    q.device = q'.device ∧ q.node = q'.node ∧ parent = parent' := by
  have hdevices := (List.nodup_append.mp config.distinct).1
  have hnode : l ∈ (parents q.node).flatMap QdiscOrClass.locations :=
    List.mem_flatMap.mpr ⟨parent, hparent, hl⟩
  have hnode' : l ∈ (parents q'.node).flatMap QdiscOrClass.locations :=
    List.mem_flatMap.mpr ⟨parent', hparent', hl'⟩
  have hdev : l ∈ q.device.locations :=
    List.mem_cons_of_mem _ (List.mem_flatMap.mpr ⟨q.node, hq.2, hnode⟩)
  have hdev' : l ∈ q'.device.locations :=
    List.mem_cons_of_mem _ (List.mem_flatMap.mpr ⟨q'.node, hq'.2, hnode'⟩)
  have hdevice := eq_of_mem_flatMap hdevices hq.1 hq'.1 hdev hdev'
  have hnodes := (List.nodup_cons.mp
    (nodup_of_mem_flatMap hdevices hq.1)).2
  have hmem' : q'.node ∈ q.device.nodes := hdevice ▸ hq'.2
  have heq := eq_of_mem_flatMap hnodes hq.2 hmem' hnode hnode'
  refine ⟨hdevice, heq, ?_⟩
  exact eq_of_mem_flatMap (nodup_of_mem_flatMap hnodes hq.2) hparent
    (heq ▸ hparent') hl hl'

private theorem location_mem (parent : QdiscOrClass L) :
    parent.location ∈ parent.locations :=
  List.mem_cons_self

private theorem filter_mem {parent : QdiscOrClass L} {f : Filter L}
    (h : f ∈ parent.filters) {l : L} (hl : l ∈ f.locations) :
    l ∈ parent.locations :=
  List.mem_cons_of_mem _ (List.mem_flatMap.mpr ⟨f, h, hl⟩)

private theorem scanQdisc_idQdisc {q : QdiscAt L}
    (hq : q.Within config.devices) {rest rest' : List Char}
    (hended : Ended rest) :
    scanQdisc config.devices (idQdisc q ++ rest) = .found (q.node, rest') ↔
      q.Identified config.devices ∧ rest' = rest := by
  constructor
  · intro h
    obtain ⟨dev, tail, hidentified, hid, hcase⟩ := scanQdisc_eq_found.mp h
    have hmem : q.node ∈ dev.nodes := by
      rcases hcase with ⟨-, htop⟩ | ⟨-, num, -, hfirst⟩
      · exact List.mem_append_left _ (top_mem htop)
      · exact List.mem_append_right _ hfirst.mem
    have hwithin : QdiscAt.Within config.devices ⟨dev, q.info, q.classes⟩ :=
      ⟨hidentified.2.mem, hmem⟩
    have htop : .qdisc q.info ∈ parents q.node := List.mem_cons_self
    obtain rfl : q.device = dev :=
      (parent_unique config hq hwithin htop htop (location_mem _)
        (location_mem _)).1
    rw [idQdisc, idDevice, List.append_assoc] at hid
    have htail := List.append_cancel_left hid
    cases hingress : q.info.ingress with
    | true =>
        rw [hingress] at htail
        obtain rfl : "ingress".toList ++ rest = tail := List.cons.inj htail |>.2
        have hscan := scanIngress_eq_some.mpr ⟨rfl, hended⟩
        rcases hcase with ⟨hsome, htop⟩ | ⟨hnone, -⟩
        · rw [hscan] at hsome
          cases hsome
          refine ⟨⟨hidentified, ?_⟩, rfl⟩
          simpa [hingress] using htop
        · rw [hscan] at hnone
          cases hnone
    | false =>
        rw [hingress] at htail
        obtain rfl : unsigned q.info.number ++ rest = tail :=
          List.cons.inj htail |>.2
        rw [scanIngress_unsigned, scanNumber_unsigned hended] at hcase
        rcases hcase with ⟨hsome, -⟩ | ⟨-, num, hnum, hfirst⟩
        · cases hsome
        · cases hnum
          refine ⟨⟨hidentified, ?_⟩, rfl⟩
          simpa [hingress] using hfirst
  · rintro ⟨⟨hidentified, hcase⟩, rfl⟩
    apply scanQdisc_eq_found.mpr
    cases hingress : q.info.ingress with
    | true =>
        refine ⟨q.device, "ingress".toList ++ rest', hidentified, ?_, .inl ?_⟩
        · simp [idQdisc, idDevice, hingress]
        · exact ⟨scanIngress_eq_some.mpr ⟨rfl, hended⟩,
            by simpa [hingress] using hcase⟩
    | false =>
        refine ⟨q.device, unsigned q.info.number ++ rest', hidentified, ?_,
          .inr ⟨scanIngress_unsigned _ _, q.info.number, ?_, ?_⟩⟩
        · simp [idQdisc, idDevice, hingress]
        · exact scanNumber_unsigned hended _
        · simpa [hingress] using hcase

private theorem scanNumber_unnumbered (rest : List Char) :
    scanNumber ("unnumbered".toList ++ rest) = .null := rfl

private theorem unsigned_ne_colon (n : BitVec 32) (rest after : List Char) :
    unsigned n ++ rest ≠ ':' :: after := by
  obtain ⟨c, digits, hdigits, hc⟩ := unsigned_eq_cons n
  rw [hdigits]
  intro h
  obtain rfl : c = ':' := (List.cons.inj h).1
  exact absurd hc (by decide)

private theorem scanQdiscOrClass_idClass {c : ClassAt L}
    (hc : c.Within config.devices) {rest rest' : List Char}
    (hended : Ended rest) :
    scanQdiscOrClass config.devices (idClass c ++ rest) =
        .found (.class c.info, rest') ↔
      c.Identified config.devices ∧ rest' = rest := by
  have hmem : .class c.info ∈ parents c.qdisc.node :=
    List.mem_cons_of_mem _ (List.mem_map.mpr ⟨_, hc.2, rfl⟩)
  constructor
  · intro h
    obtain ⟨q, tail, hq, hcase⟩ := scanQdiscOrClass_eq_found.mp h
    obtain ⟨dev, hwithin⟩ := scanQdisc_within hq
    rcases hcase with ⟨_, -, -, heq⟩ | ⟨-, num, c', hnum, hfirst, heq⟩
    · cases heq
    · cases heq
      have hmem' : .class c.info ∈ parents q :=
        List.mem_cons_of_mem _ (List.mem_map.mpr ⟨_, hfirst.mem, rfl⟩)
      obtain rfl : c.qdisc.node = q :=
        (parent_unique config hc.1 hwithin hmem hmem' (location_mem _)
          (location_mem _)).2.1
      rw [idClass, List.append_assoc] at hq
      by_cases hundef : c.info.number = undefU32
      · rw [if_pos hundef] at hq
        have htail := ((scanQdisc_idQdisc config hc.1 (ended_colon _)).mp hq).2
        obtain rfl : tail = "unnumbered".toList ++ rest :=
          (List.cons.inj htail).2
        rw [scanNumber_unnumbered] at hnum
        cases hnum
      · rw [if_neg hundef] at hq
        obtain ⟨hidentified, htail⟩ :=
          (scanQdisc_idQdisc config hc.1 (ended_colon _)).mp hq
        obtain rfl : tail = unsigned c.info.number ++ rest :=
          (List.cons.inj htail).2
        rw [scanNumber_unsigned hended] at hnum
        cases hnum
        exact ⟨⟨hidentified, hundef, hfirst⟩, rfl⟩
  · rintro ⟨⟨hidentified, hundef, hfirst⟩, rfl⟩
    apply scanQdiscOrClass_eq_found.mpr
    refine ⟨c.qdisc.node, unsigned c.info.number ++ rest', ?_,
      .inr ⟨fun after => unsigned_ne_colon _ _ _, _, _,
        scanNumber_unsigned hended _, hfirst, rfl⟩⟩
    rw [idClass, if_neg hundef, List.append_assoc]
    exact (scanQdisc_idQdisc config hc.1 (ended_colon _)).mpr
      ⟨hidentified, rfl⟩

private theorem scanQdiscOrClass_idQdisc {q : QdiscAt L}
    (hq : q.Within config.devices) {rest rest' : List Char} :
    scanQdiscOrClass config.devices (idQdisc q ++ ':' :: ':' :: rest) =
        .found (.qdisc q.info, rest') ↔
      q.Identified config.devices ∧ rest' = ':' :: rest := by
  constructor
  · intro h
    obtain ⟨q', tail, hq', hcase⟩ := scanQdiscOrClass_eq_found.mp h
    obtain ⟨dev, hwithin⟩ := scanQdisc_within hq'
    rcases hcase with ⟨after, rfl, rfl, heq⟩ | ⟨-, num, c, -, -, heq⟩
    · have hinfo : q.info = q'.1 := by
        simpa using heq
      have htop : .qdisc q.info ∈ parents q' := by
        rw [hinfo]
        exact List.mem_cons_self
      obtain rfl : q.node = q' :=
        (parent_unique config hq hwithin List.mem_cons_self htop
          (location_mem _) (location_mem _)).2.1
      obtain ⟨hidentified, htail⟩ :=
        (scanQdisc_idQdisc config hq (ended_colon _)).mp hq'
      exact ⟨hidentified, (List.cons.inj htail).2⟩
    · cases heq
  · rintro ⟨hidentified, rfl⟩
    apply scanQdiscOrClass_eq_found.mpr
    refine ⟨q.node, ':' :: rest, ?_, .inl ⟨rest, rfl, rfl, rfl⟩⟩
    exact (scanQdisc_idQdisc config hq (ended_colon _)).mpr ⟨hidentified, rfl⟩

private theorem scanQdiscOrClass_parent {parent : FilterParent L}
    (hparent : parent.Within config.devices) {rest rest' : List Char} :
    scanQdiscOrClass config.devices (parent.id ++ ':' :: rest) =
        .found (parent.target, rest') ↔
      parent.Identified config.devices ∧ rest' = ':' :: rest := by
  cases parent with
  | qdisc q =>
      rw [FilterParent.id, List.append_assoc]
      exact scanQdiscOrClass_idQdisc config hparent
  | «class» c => exact scanQdiscOrClass_idClass config hparent (ended_colon _)

/-! ## Identifiers of filters -/

private theorem exists_parents {parent : FilterParent L}
    (h : parent.Within config.devices) :
    ∃ q : QdiscAt L, q.Within config.devices ∧
      parent.target ∈ parents q.node := by
  cases parent with
  | qdisc q => exact ⟨q, h, List.mem_cons_self⟩
  | «class» c =>
      exact ⟨c.qdisc, h.1,
        List.mem_cons_of_mem _ (List.mem_map.mpr ⟨_, h.2, rfl⟩)⟩

private theorem filter_unique {f f' : FilterAt L}
    (hf : f.Within config.devices) (hf' : f'.Within config.devices) {l : L}
    (hl : l ∈ f.filter.locations) (hl' : l ∈ f'.filter.locations) :
    f.parent.target = f'.parent.target ∧ f.filter = f'.filter := by
  obtain ⟨q, hq, hmem⟩ := exists_parents config hf.1
  obtain ⟨q', hq', hmem'⟩ := exists_parents config hf'.1
  have hfilter := hf.2
  have hfilter' := hf'.2
  rw [← target_filters] at hfilter hfilter'
  obtain ⟨-, -, htarget⟩ := parent_unique config hq hq' hmem hmem'
    (filter_mem hfilter hl) (filter_mem hfilter' hl')
  refine ⟨htarget, ?_⟩
  have hdevices := (List.nodup_append.mp config.distinct).1
  have hnodes := (List.nodup_cons.mp
    (nodup_of_mem_flatMap hdevices hq.1)).2
  have hparents := nodup_of_mem_flatMap hnodes hq.2
  have hfilters := (List.nodup_cons.mp
    (nodup_of_mem_flatMap hparents hmem)).2
  exact eq_of_mem_flatMap hfilters hfilter (htarget ▸ hfilter') hl hl'

private theorem location_mem_filter (f : Filter L) :
    f.location ∈ f.locations :=
  List.mem_cons_self

private theorem scanFilter_idFilter {f : FilterAt L}
    (hf : f.Within config.devices) {rest rest' : List Char}
    (hended : Ended rest) :
    scanFilter config.devices (idFilter f ++ rest) =
        .found (f.filter, rest') ↔
      f.Identified config.devices ∧ rest' = rest := by
  rw [idFilter, List.append_assoc, List.cons_append]
  constructor
  · intro h
    obtain ⟨found, tail, num, hfound, hnum, hfirst⟩ :=
      scanFilter_eq_found.mp h
    obtain ⟨parent, hparent, rfl⟩ := scanQdiscOrClass_within hfound
    rw [target_filters] at hfirst
    have hwithin : FilterAt.Within config.devices ⟨parent, f.filter⟩ :=
      ⟨hparent, hfirst.mem⟩
    have htarget : f.parent.target = parent.target :=
      (filter_unique config hf hwithin (location_mem_filter _)
        (location_mem_filter _)).1
    rw [← htarget] at hfound
    obtain ⟨hidentified, htail⟩ :=
      (scanQdiscOrClass_parent config hf.1).mp hfound
    obtain rfl : tail = unsigned f.filter.number ++ rest :=
      (List.cons.inj htail).2
    rw [scanNumber_unsigned hended] at hnum
    cases hnum
    have hfilters : f.parent.filters = parent.filters := by
      rw [← target_filters, htarget, target_filters]
    exact ⟨⟨hidentified, hfilters ▸ hfirst⟩, rfl⟩
  · rintro ⟨⟨hidentified, hfirst⟩, rfl⟩
    apply scanFilter_eq_found.mpr
    refine ⟨f.parent.target, _, f.filter.number,
      (scanQdiscOrClass_parent config hf.1).mpr ⟨hidentified, rfl⟩,
      scanNumber_unsigned hended _, ?_⟩
    rwa [target_filters]

/-- The number of a tunnel or an element, after the filter. -/
private theorem scanMember_idFilter {f : FilterAt L}
    (hf : f.Within config.devices) {n : Nat} {num : BitVec 32} :
    scanMember config.toConfig (idFilter f ++ ':' :: Nat.toDigits 10 n) =
        .found (f.filter, num) ↔
      f.Identified config.devices ∧ num = .ofNat 32 n := by
  have hdigits := scanNumber_toDigits ended_nil n
  rw [List.append_nil] at hdigits
  simp only [scanMember, Lookup.bind_eq_found, scanChar_eq_found,
    atEnd_eq_found, Lookup.pure_eq_found, Prod.exists, Prod.mk.injEq]
  constructor
  · rintro ⟨_, _, hscan, tail, rfl, _, _, hnum, _, rfl, rfl, rfl⟩
    obtain ⟨hidentified, htail⟩ :=
      (scanFilter_idFilter config hf (ended_colon _)).mp hscan
    obtain rfl := (List.cons.inj htail).2
    rw [hdigits] at hnum
    cases hnum
    exact ⟨hidentified, rfl⟩
  · rintro ⟨hidentified, rfl⟩
    refine ⟨f.filter, _, ?_, Nat.toDigits 10 n, rfl, .ofNat 32 n, [], hdigits,
      (), rfl, rfl, rfl⟩
    exact (scanFilter_idFilter config hf (ended_colon _)).mpr
      ⟨hidentified, rfl⟩

/-! ## Objects with lines -/

def Object.Within (config : Config L) : Object L → Prop
  | .device dev => dev ∈ config.devices
  | .qdisc q => q.Within config.devices
  | .class c => c.Within config.devices
  | .filter f => f.Within config.devices
  | .element f _ e => f.Within config.devices ∧ e ∈ f.filter.elements
  | .tunnel f t =>
      f.Within config.devices ∧ t ∈ f.filter.elements.filterMap (·.tunnel)
  | .police p => p ∈ config.policers

def Object.lookup (config : Config L) : Object L → List Char → Lookup L
  | .device _ => deviceLocation config
  | .qdisc _ => qdiscLocation config
  | .class _ => classLocation config
  | .filter _ => filterLocation config
  | .element _ _ _ => elementLocation config
  | .tunnel _ _ => tunnelLocation config
  | .police _ => policeLocation config

omit [DecidableEq L] in
private theorem locationBySpec_spec (config : Config L) (o : Object L) :
    locationBySpec config o.spec = o.lookup config o.id := by
  cases o <;> rfl

private theorem device_found {dev : Device L} (hdev : dev ∈ config.devices) :
    deviceLocation config.toConfig (idDevice dev) = .found dev.location ↔
      dev.Identified config.devices := by
  simp only [deviceLocation, Lookup.bind_eq_found, atEnd_eq_found,
    Lookup.ofOption_eq_found, Lookup.pure_eq_found]
  constructor
  · rintro ⟨_, hend, dev', hdev', hlocation⟩
    have hscan : scanDevice config.devices (idDevice dev) = (some dev', []) :=
      Prod.ext hdev' hend
    obtain ⟨hidentified, -, -⟩ := scanDevice_eq_some.mp hscan
    have hdevices := (List.nodup_append.mp config.distinct).1
    obtain rfl : dev = dev' := by
      apply eq_of_mem_flatMap hdevices hdev hidentified.2.mem
        List.mem_cons_self
      rw [← hlocation]
      exact List.mem_cons_self
    exact hidentified
  · intro hidentified
    have hscan : scanDevice config.devices (idDevice dev) = (some dev, []) :=
      scanDevice_eq_some.mpr
        ⟨hidentified, (List.append_nil _).symm, ended_nil⟩
    rw [hscan]
    exact ⟨(), rfl, dev, rfl, rfl⟩

private theorem qdisc_found {q : QdiscAt L} (hq : q.Within config.devices) :
    qdiscLocation config.toConfig (idQdisc q) = .found q.info.location ↔
      q.Identified config.devices := by
  have hscan (rest : List Char) :
      scanQdisc config.devices (idQdisc q) = .found (q.node, rest) ↔
        q.Identified config.devices ∧ rest = [] := by
    simpa using scanQdisc_idQdisc config hq ended_nil
  simp only [qdiscLocation, Lookup.bind_eq_found, atEnd_eq_found,
    Lookup.pure_eq_found, Prod.exists]
  constructor
  · rintro ⟨info, classes, rest, hfound, _, rfl, hlocation⟩
    obtain ⟨dev, hwithin⟩ := scanQdisc_within hfound
    have hl : q.info.location ∈ (QdiscOrClass.qdisc info).locations := by
      rw [← hlocation]
      exact location_mem _
    obtain ⟨-, hnode, -⟩ := parent_unique config hq hwithin
      List.mem_cons_self List.mem_cons_self (location_mem _) hl
    have hinfo : q.node = (info, classes) := hnode
    rw [← hinfo] at hfound
    exact ((hscan []).mp hfound).1
  · intro hidentified
    exact ⟨q.info, q.classes, [], (hscan []).mpr ⟨hidentified, rfl⟩, (), rfl,
      rfl⟩

private theorem class_found {c : ClassAt L} (hc : c.Within config.devices) :
    classLocation config.toConfig (idClass c) = .found c.info.location ↔
      c.Identified config.devices := by
  have hscan (rest : List Char) :
      scanQdiscOrClass config.devices (idClass c) =
          .found (.class c.info, rest) ↔
        c.Identified config.devices ∧ rest = [] := by
    simpa using scanQdiscOrClass_idClass config hc ended_nil
  simp only [classLocation, Lookup.bind_eq_found, Prod.exists]
  constructor
  · rintro ⟨found, rest, hfound, h⟩
    cases found with
    | qdisc info => cases h
    | «class» info =>
        simp only [Lookup.bind_eq_found, atEnd_eq_found,
          Lookup.pure_eq_found] at h
        obtain ⟨_, rfl, hlocation⟩ := h
        obtain ⟨q, tail, hq, hcase⟩ := scanQdiscOrClass_eq_found.mp hfound
        obtain ⟨dev, hwithin⟩ := scanQdisc_within hq
        rcases hcase with ⟨_, -, -, heq⟩ | ⟨-, num, c', -, hfirst, heq⟩
        · cases heq
        · cases heq
          have hmem : .class c.info ∈ parents c.qdisc.node :=
            List.mem_cons_of_mem _ (List.mem_map.mpr ⟨_, hc.2, rfl⟩)
          have hmem' : .class info ∈ parents q :=
            List.mem_cons_of_mem _ (List.mem_map.mpr ⟨_, hfirst.mem, rfl⟩)
          have hl : c.info.location ∈ (QdiscOrClass.class info).locations := by
            rw [← hlocation]
            exact location_mem _
          obtain ⟨-, -, hinfo⟩ := parent_unique config hc.1 hwithin hmem hmem'
            (location_mem _) hl
          cases hinfo
          exact ((hscan []).mp hfound).1
  · intro hidentified
    refine ⟨.class c.info, [], (hscan []).mpr ⟨hidentified, rfl⟩, ?_⟩
    simp

private theorem filter_found {f : FilterAt L} (hf : f.Within config.devices) :
    filterLocation config.toConfig (idFilter f) = .found f.filter.location ↔
      f.Identified config.devices := by
  have hscan (rest : List Char) :
      scanFilter config.devices (idFilter f) = .found (f.filter, rest) ↔
        f.Identified config.devices ∧ rest = [] := by
    simpa using scanFilter_idFilter config hf ended_nil
  simp only [filterLocation, Lookup.bind_eq_found, atEnd_eq_found,
    Lookup.pure_eq_found, Prod.exists]
  constructor
  · rintro ⟨f', rest, hfound, _, rfl, hlocation⟩
    obtain ⟨f', hwithin, rfl⟩ := scanFilter_within hfound
    have hl : f.filter.location ∈ f'.filter.locations := by
      rw [← hlocation]
      exact location_mem_filter _
    obtain ⟨-, hfilter⟩ := filter_unique config hf hwithin
      (location_mem_filter _) hl
    rw [← hfilter] at hfound
    exact ((hscan []).mp hfound).1
  · intro hidentified
    exact ⟨f.filter, [], (hscan []).mpr ⟨hidentified, rfl⟩, (), rfl, rfl⟩

private theorem element_mem {f : Filter L} {e : Element L}
    (h : e ∈ f.elements) : e.location ∈ f.locations :=
  List.mem_cons_of_mem _ (List.mem_append_left _ (List.mem_map.mpr ⟨e, h, rfl⟩))

private theorem tunnel_mem {f : Filter L} {t : Tunnel L}
    (h : t ∈ f.elements.filterMap (·.tunnel)) : t.location ∈ f.locations :=
  List.mem_cons_of_mem _ (List.mem_append_right _
    (List.mem_dedup.mpr (List.mem_map.mpr ⟨t, h, rfl⟩)))

private theorem element_unique {f : FilterAt L}
    (hf : f.Within config.devices) {e e' : Element L}
    (he : e ∈ f.filter.elements) (he' : e' ∈ f.filter.elements)
    (h : e.location = e'.location) : e = e' := by
  obtain ⟨q, hq, hmem⟩ := exists_parents config hf.1
  have hfilter := hf.2
  rw [← target_filters] at hfilter
  have hdevices := (List.nodup_append.mp config.distinct).1
  have hnodes := (List.nodup_cons.mp
    (nodup_of_mem_flatMap hdevices hq.1)).2
  have hparents := nodup_of_mem_flatMap hnodes hq.2
  have hfilters := (List.nodup_cons.mp
    (nodup_of_mem_flatMap hparents hmem)).2
  have hlocations := (List.nodup_cons.mp
    (nodup_of_mem_flatMap hfilters hfilter)).2
  exact List.inj_on_of_nodup_map (List.nodup_append.mp hlocations).1 he he' h

private theorem element_found {f : FilterAt L} (hf : f.Within config.devices)
    {n : Nat} {e : Element L} (he : e ∈ f.filter.elements) :
    elementLocation config.toConfig (idFilter f ++ ':' :: Nat.toDigits 10 n) =
        .found e.location ↔
      f.Identified config.devices ∧
        First (fun other => other.number = .ofNat 32 n) f.filter.elements
          e := by
  simp only [elementLocation, Lookup.bind_eq_found, Lookup.ofOption_eq_found,
    find?_eq_some_iff, Lookup.pure_eq_found, Prod.exists]
  constructor
  · rintro ⟨f', num, hscan, e', hfirst, hlocation⟩
    obtain ⟨f', hwithin, rfl⟩ := scanMember_within hscan
    have hl : e.location ∈ f'.filter.locations := by
      rw [← hlocation]
      exact element_mem hfirst.mem
    obtain ⟨-, hfilter⟩ := filter_unique config hf hwithin (element_mem he) hl
    rw [← hfilter] at hscan hfirst
    obtain ⟨hidentified, rfl⟩ := (scanMember_idFilter config hf).mp hscan
    obtain rfl := element_unique config hf hfirst.mem he hlocation
    exact ⟨hidentified, hfirst⟩
  · rintro ⟨hidentified, hfirst⟩
    exact ⟨f.filter, _, (scanMember_idFilter config hf).mpr ⟨hidentified, rfl⟩,
      e, hfirst, rfl⟩

private theorem tunnel_found {f : FilterAt L} (hf : f.Within config.devices)
    {t : Tunnel L} (ht : t ∈ f.filter.elements.filterMap (·.tunnel)) :
    tunnelLocation config.toConfig (idTunnel f t) = .found t.location ↔
      f.Identified config.devices ∧
        First (fun other => other.number = t.number)
          (f.filter.elements.filterMap (·.tunnel)) t := by
  have hnumber : BitVec.ofNat 32 t.number.toNat = t.number := by simp
  simp only [tunnelLocation, idTunnel, unsigned, Lookup.bind_eq_found,
    Lookup.ofOption_eq_found, find?_eq_some_iff, Lookup.pure_eq_found,
    Prod.exists]
  constructor
  · rintro ⟨f', num, hscan, t', hfirst, hlocation⟩
    obtain ⟨f', hwithin, rfl⟩ := scanMember_within hscan
    have hl : t.location ∈ f'.filter.locations := by
      rw [← hlocation]
      exact tunnel_mem hfirst.mem
    obtain ⟨-, hfilter⟩ := filter_unique config hf hwithin (tunnel_mem ht) hl
    rw [← hfilter] at hscan hfirst
    obtain ⟨hidentified, rfl⟩ := (scanMember_idFilter config hf).mp hscan
    rw [hnumber] at hfirst
    obtain rfl : t' = t := by
      cases t
      cases t'
      exact Tunnel.mk.injEq _ _ _ _ ▸ ⟨hfirst.1, hlocation⟩
    exact ⟨hidentified, hfirst⟩
  · rintro ⟨hidentified, hfirst⟩
    refine ⟨f.filter, _,
      (scanMember_idFilter config hf).mpr ⟨hidentified, rfl⟩, t, ?_, rfl⟩
    rwa [hnumber]

private theorem police_found {p : Police L} (hp : p ∈ config.policers) :
    policeLocation config.toConfig (unsigned p.number) = .found p.location ↔
      First (fun other => other.number = p.number) config.policers p := by
  have hscan := scanNumber_unsigned ended_nil p.number
  rw [List.append_nil] at hscan
  simp only [policeLocation, hscan, Lookup.bind_eq_found, atEnd_eq_found,
    Lookup.ofOption_eq_found, find?_eq_some_iff, Lookup.pure_eq_found,
    Prod.exists]
  constructor
  · rintro ⟨num, rest, hnum, _, -, p', hfirst, hlocation⟩
    cases hnum
    have hpolicers := (List.nodup_append.mp config.distinct).2.1
    obtain rfl := List.inj_on_of_nodup_map hpolicers hfirst.mem hp hlocation
    exact hfirst
  · intro hfirst
    exact ⟨p.number, [], rfl, (), rfl, p, hfirst, rfl⟩

private theorem Object.found_iff {o : Object L}
    (ho : o.Within config.toConfig) :
    o.lookup config.toConfig o.id = .found o.location ↔
      o.Identified config.toConfig := by
  cases o with
  | device dev => exact device_found config ho
  | qdisc q => exact qdisc_found config ho
  | «class» c => exact class_found config ho
  | filter f => exact filter_found config ho
  | element f n e => exact element_found config ho.1 ho.2
  | tunnel f t => exact tunnel_found config ho.1 ho.2
  | police p => exact police_found config ho

/-! ## The lines -/

private theorem mapElementsFrom_within {f : FilterAt L}
    (hf : f.Within config.devices) (before : List (Element L)) (n : Nat)
    (elements : List (Element L))
    (hmem : ∀ e ∈ elements, e ∈ f.filter.elements) :
    ∀ o ∈ mapElementsFrom f before n elements, o.Within config.toConfig := by
  induction elements generalizing before n with
  | nil => simp [mapElementsFrom]
  | cons e rest ih =>
      have he := hmem e List.mem_cons_self
      have hrest := ih (before ++ [e]) (n + 1)
        (fun e he => hmem e (List.mem_cons_of_mem _ he))
      intro o ho
      simp only [mapElementsFrom, List.mem_cons, List.mem_append] at ho
      rcases ho with rfl | ho | ho
      · exact ⟨hf, he⟩
      · cases htunnel : e.tunnel with
        | none => simp [htunnel] at ho
        | some t =>
            simp only [htunnel] at ho
            split at ho
            · cases ho
            · obtain rfl := List.mem_singleton.mp ho
              exact ⟨hf, List.mem_filterMap.mpr ⟨e, he, htunnel⟩⟩
      · exact hrest o ho

private theorem mapFilters_within {parent : FilterParent L}
    (hparent : parent.Within config.devices) :
    ∀ o ∈ mapFilters parent parent.filters, o.Within config.toConfig := by
  intro o ho
  obtain ⟨f, hf, ho⟩ := List.mem_flatMap.mp ho
  have hwithin : FilterAt.Within config.devices ⟨parent, f⟩ := ⟨hparent, hf⟩
  rcases List.mem_cons.mp ho with rfl | ho
  · exact hwithin
  · exact mapElementsFrom_within config hwithin [] 0 f.elements
      (fun e he => he) o ho

mutual

private theorem mapQdisc_within {dev : Device L} (hdev : dev ∈ config.devices)
    (t : QdiscTree L) (hnodes : t.nodes ⊆ dev.nodes) :
    ∀ o ∈ mapQdisc dev t, o.Within config.toConfig := by
  cases t with
  | null => simp [mapQdisc]
  | qdisc info classes =>
      have hq : QdiscAt.Within config.devices ⟨dev, info, classes⟩ :=
        ⟨hdev, hnodes List.mem_cons_self⟩
      have hclasses := mapClasses_within hq classes (fun c hc => hc)
        (fun q hq => hnodes (List.mem_cons_of_mem _ hq))
      have hfilters := mapFilters_within config
        (show FilterParent.Within config.devices (.qdisc _) from hq)
      intro o ho
      simp only [mapQdisc, List.mem_cons, List.mem_append] at ho
      rcases ho with rfl | ho | ho
      · exact hq
      · exact hclasses o ho
      · exact hfilters o ho

private theorem mapClasses_within {q : QdiscAt L}
    (hq : q.Within config.devices) (t : ClassTree L)
    (hown : t.own ⊆ q.classes.own) (hnodes : t.nodes ⊆ q.device.nodes) :
    ∀ o ∈ mapClasses q t, o.Within config.toConfig := by
  cases t with
  | null => simp [mapClasses]
  | «class» info qdisc child next =>
      simp only [Classes.own_class, List.cons_subset, List.append_subset]
        at hown
      simp only [Classes.nodes, List.append_subset] at hnodes
      have hc : ClassAt.Within config.devices ⟨q, info⟩ := ⟨hq, hown.1⟩
      have hchild := mapClasses_within hq child hown.2.1 hnodes.2.1
      have hbelow := mapQdisc_within hq.1 qdisc hnodes.1
      have hfilters := mapFilters_within config
        (show FilterParent.Within config.devices (.class _) from hc)
      have hnext := mapClasses_within hq next hown.2.2 hnodes.2.2
      intro o ho
      simp only [mapClasses, List.mem_cons, List.mem_append] at ho
      rcases ho with rfl | ((ho | ho) | ho) | ho
      · exact hc
      · exact hchild o ho
      · exact hbelow o ho
      · exact hfilters o ho
      · exact hnext o ho

end

private theorem mapped_within {o : Object L} (ho : o ∈ config.mapped) :
    o.Within config.toConfig := by
  rcases List.mem_append.mp ho with ho | ho
  · obtain ⟨dev, hdev, ho⟩ := List.mem_flatMap.mp ho
    simp only [List.mem_cons, List.mem_append] at ho
    rcases ho with rfl | ho | ho
    · exact hdev
    · exact mapQdisc_within config hdev _ (List.subset_append_left _ _) o ho
    · exact mapQdisc_within config hdev _ (List.subset_append_right _ _) o ho
  · obtain ⟨p, hp, rfl⟩ := List.mem_map.mp ho
    exact (List.mem_filter.mp hp).1

/-- A line of the location map leads back to the object it was printed for
exactly if the object is identified by what was printed. -/
theorem locationBySpec_mapped_iff (o : Object L) (ho : o ∈ config.mapped) :
    locationBySpec config.toConfig o.spec = .found o.location ↔
      o.Identified config.toConfig := by
  rw [locationBySpec_spec]
  exact Object.found_iff config (mapped_within config ho)

end

/-- A `fw` filter with elements for the marks 1 and 2. -/
def fwFilter : Filter Nat :=
  ⟨1, 2, [⟨1, 3, none⟩, ⟨2, 4, none⟩]⟩

def fwQdisc : QdiscInfo Nat := ⟨false, 1, 1, [fwFilter]⟩

def fwClasses : ClassTree Nat :=
  .class ⟨1, 5, []⟩ .null .null (.class ⟨2, 6, []⟩ .null .null .null)

def fwDevice : Device Nat :=
  ⟨"eth0".toList, 0, .null, .qdisc fwQdisc fwClasses⟩

def fwConfig : PlacedConfig Nat where
  devices := [fwDevice]
  policers := []
  distinct := by decide

def fwMark2 : Object Nat :=
  .element ⟨.qdisc ⟨fwDevice, fwQdisc, fwClasses⟩, fwFilter⟩ 1 ⟨2, 4, none⟩

/-- The line for mark 2 says 1, for its position, and leads to mark 1. -/
theorem locationBySpec_mapped_iff_fwMark2 :
    locationBySpec fwConfig.toConfig fwMark2.spec = .found 3 ∧
      ¬fwMark2.Identified fwConfig.toConfig := by
  have hmem : fwMark2 ∈ fwConfig.mapped :=
    List.mem_of_getElem? (show fwConfig.mapped[6]? = some fwMark2 from rfl)
  have hfound : locationBySpec fwConfig.toConfig fwMark2.spec = .found 3 := by
    decide +kernel
  refine ⟨hfound, fun h => ?_⟩
  have hlocation := (locationBySpec_mapped_iff fwConfig fwMark2 hmem).mpr h
  rw [hfound] at hlocation
  cases hlocation

theorem fwConfig_notFound :
    ¬∀ o ∈ fwConfig.mapped,
      locationBySpec fwConfig.toConfig o.spec = .found o.location := by
  decide +kernel

end LocationMap

end Tcng
