import Tcng.Tree.SelectionRegister
import Tcng.Lib.Mask

/-! Numbers of selecting classes: which bits belong to which qdisc, and what
the filters make of them. -/

namespace Tcng.Csp

open Program

/-! ## Which bits belong to a qdisc -/

/-- The bits for the classes of a qdisc. -/
def SelQdisc.ownBits (q : SelQdisc) : Nat := countBits (q.numClasses + 1) 0

mutual

/-- The bits for a qdisc and those below, as far as they are registered. -/
def width (qdiscs : List SelQdisc) : InnerQdisc → Nat
  | .null => 0
  | .qdisc info classes =>
      match findQdisc qdiscs info.address with
      | none => 0
      | some q => widths qdiscs classes + q.ownBits

def widths (qdiscs : List SelQdisc) : InnerClasses → Nat
  | .null => 0
  | .class _ qdisc child next =>
      max (width qdiscs qdisc)
        (max (widths qdiscs child) (widths qdiscs next))

end

mutual

/-- Each registered qdisc has its bits above those below it. -/
def Laid (qdiscs : List SelQdisc) : InnerQdisc → Prop
  | .null => True
  | .qdisc info classes =>
      ∀ q, findQdisc qdiscs info.address = some q →
        q.bits = q.ownBits ∧ q.shift = widths qdiscs classes ∧
          LaidOut qdiscs classes

def LaidOut (qdiscs : List SelQdisc) : InnerClasses → Prop
  | .null => True
  | .class _ qdisc child next =>
      Laid qdiscs qdisc ∧ LaidOut qdiscs child ∧ LaidOut qdiscs next

end

def SelQdisc.core (q : SelQdisc) : QdiscInfo × List SelClass × Nat :=
  (q.qdisc, q.classes, q.numClasses)

/-- Only bits and shifts of these qdiscs have changed. -/
structure Resized (addresses : List Nat) (qdiscs qdiscs' : List SelQdisc) :
    Prop where
  core : qdiscs'.map SelQdisc.core = qdiscs.map SelQdisc.core
  others : ∀ a ∉ addresses, findQdisc qdiscs' a = findQdisc qdiscs a

section

variable {qdiscs qdiscs' qdiscs'' : List SelQdisc}

theorem findQdisc_core
    (h : qdiscs'.map SelQdisc.core = qdiscs.map SelQdisc.core) (a : Nat) :
    (findQdisc qdiscs' a).map SelQdisc.core =
      (findQdisc qdiscs a).map SelQdisc.core := by
  have hfind (qdiscs : List SelQdisc) :
      (findQdisc qdiscs a).map SelQdisc.core =
        (qdiscs.map SelQdisc.core).find? (·.1.address == a) := by
    rw [List.find?_map]
    rfl
  rw [hfind, hfind, h]

theorem findQdisc_core_some {q' : SelQdisc} {a : Nat}
    (h : qdiscs'.map SelQdisc.core = qdiscs.map SelQdisc.core)
    (hq' : findQdisc qdiscs' a = some q') :
    ∃ q, findQdisc qdiscs a = some q ∧ q'.core = q.core := by
  have hcore := findQdisc_core h a
  rw [hq'] at hcore
  obtain ⟨q, hq, heq⟩ := Option.map_eq_some_iff.mp hcore.symm
  exact ⟨q, hq, heq.symm⟩

theorem mem_core {q' : SelQdisc}
    (h : qdiscs'.map SelQdisc.core = qdiscs.map SelQdisc.core)
    (hq' : q' ∈ qdiscs') : ∃ q ∈ qdiscs, q'.core = q.core := by
  have hcore := List.mem_map_of_mem (f := SelQdisc.core) hq'
  rw [h] at hcore
  obtain ⟨q, hq, heq⟩ := List.mem_map.mp hcore
  exact ⟨q, hq, heq.symm⟩

theorem CountedQdiscs.core (h : CountedQdiscs qdiscs)
    (hcore : qdiscs'.map SelQdisc.core = qdiscs.map SelQdisc.core) :
    CountedQdiscs qdiscs' where
  addresses := by
    have haddress (qdiscs : List SelQdisc) :
        qdiscs.map (·.qdisc.address) =
          (qdiscs.map SelQdisc.core).map (·.1.address) := by
      rw [List.map_map]
      rfl
    rw [haddress, hcore, ← haddress]
    exact h.addresses
  counted q' hq' := by
    obtain ⟨q, hq, heq⟩ := mem_core hcore hq'
    have hcounted := h.counted q hq
    have hqdisc : q'.qdisc = q.qdisc := congrArg Prod.fst heq
    have hclasses : q'.classes = q.classes := congrArg (·.2.1) heq
    have hnum : q'.numClasses = q.numClasses := congrArg (·.2.2) heq
    constructor
    · rw [hqdisc]
      exact hcounted.gred
    · rw [hclasses]
      exact hcounted.addresses
    · rw [hclasses]
      exact hcounted.numbers
    · rw [hclasses, hnum]
      exact hcounted.range

theorem HasNumber.core {cl : ClassInfo} (h : HasNumber qdiscs cl)
    (hcore : qdiscs'.map SelQdisc.core = qdiscs.map SelQdisc.core) :
    HasNumber qdiscs' cl := by
  obtain ⟨q, hq, c, hc, haddress⟩ := h
  obtain ⟨q', hq', heq⟩ := findQdisc_core_some hcore.symm hq
  have hclasses : q.classes = q'.classes := congrArg (·.2.1) heq
  exact ⟨q', hq', c, hclasses ▸ hc, haddress⟩

theorem Resized.trans {xs ys : List Nat} (h : Resized xs qdiscs qdiscs')
    (h' : Resized ys qdiscs' qdiscs'') : Resized (xs ++ ys) qdiscs qdiscs'' where
  core := h'.core.trans h.core
  others a ha := by
    rw [List.mem_append, not_or] at ha
    rw [h'.others a ha.2, h.others a ha.1]

theorem Resized.update {a : Nat} {f : SelQdisc → SelQdisc}
    (hf : ∀ q, (f q).core = q.core) :
    Resized [a] qdiscs (updateQdisc a f qdiscs) where
  core := map_updateQdisc hf
  others b hb := by
    rw [findQdisc_update fun q => congrArg Prod.fst (hf q),
      if_neg (fun h => hb (List.mem_singleton.mpr h))]

mutual

theorem width_congr (h : qdiscs'.map SelQdisc.core = qdiscs.map SelQdisc.core)
    (t : InnerQdisc) : width qdiscs' t = width qdiscs t := by
  match t with
  | .null => rfl
  | .qdisc info classes =>
      have hcore := findQdisc_core h info.address
      unfold width
      cases hq : findQdisc qdiscs info.address with
      | none =>
          rw [hq] at hcore
          rw [Option.map_eq_none_iff.mp hcore]
      | some q =>
          rw [hq] at hcore
          obtain ⟨q', hq', heq⟩ := Option.map_eq_some_iff.mp hcore
          have hnum : q'.numClasses = q.numClasses := congrArg (·.2.2) heq
          rw [hq']
          dsimp only
          rw [widths_congr h classes, SelQdisc.ownBits, hnum]
          rfl

theorem widths_congr (h : qdiscs'.map SelQdisc.core = qdiscs.map SelQdisc.core)
    (t : InnerClasses) : widths qdiscs' t = widths qdiscs t := by
  match t with
  | .null => rfl
  | .class info qdisc child next =>
      unfold widths
      rw [width_congr h qdisc, widths_congr h child, widths_congr h next]

end

mutual

theorem Laid.resized {addresses : List Nat} (h : Resized addresses qdiscs qdiscs')
    (t : InnerQdisc) (hlaid : Laid qdiscs t)
    (ht : ∀ q ∈ t.qdiscs, q.address ∉ addresses) : Laid qdiscs' t := by
  match t with
  | .null => trivial
  | .qdisc info classes =>
      intro q hq
      rw [h.others _ (ht info List.mem_cons_self)] at hq
      obtain ⟨hbits, hshift, hclasses⟩ := hlaid q hq
      refine ⟨hbits, ?_, LaidOut.resized h classes hclasses fun q hq =>
        ht q (List.mem_cons_of_mem _ hq)⟩
      rw [widths_congr h.core, hshift]

theorem LaidOut.resized {addresses : List Nat}
    (h : Resized addresses qdiscs qdiscs') (t : InnerClasses)
    (hlaid : LaidOut qdiscs t)
    (ht : ∀ q ∈ t.qdiscs, q.address ∉ addresses) : LaidOut qdiscs' t := by
  match t with
  | .null => trivial
  | .class info qdisc child next =>
      obtain ⟨hqdisc, hchild, hnext⟩ := hlaid
      simp only [Classes.qdiscs, List.mem_append] at ht
      exact ⟨Laid.resized h qdisc hqdisc fun q hq => ht q (.inl hq),
        LaidOut.resized h child hchild fun q hq => ht q (.inr (.inl hq)),
        LaidOut.resized h next hnext fun q hq => ht q (.inr (.inr hq))⟩

end

end

/-- What is computed for a part of the tree. -/
structure Computed (addresses : List Nat) (qdiscs : List SelQdisc)
    (IsLaid : List SelQdisc → Prop) (bits : Nat)
    (result : List SelQdisc × Nat) : Prop where
  resized : Resized addresses qdiscs result.1
  laid : IsLaid result.1
  bits : result.2 = bits

mutual

theorem selectionBits_computes (qdiscs : List SelQdisc) (t : InnerQdisc)
    (hnodup : (t.qdiscs.map QdiscInfo.address).Nodup)
    (hgred : ∀ q ∈ t.qdiscs, q.gred = false) :
    Computed (t.qdiscs.map QdiscInfo.address) qdiscs (Laid · t)
      (width qdiscs t) (selectionBits qdiscs t) := by
  match t with
  | .null => exact ⟨⟨rfl, fun _ _ => rfl⟩, trivial, rfl⟩
  | .qdisc info classes =>
      unfold selectionBits width
      cases hq : findQdisc qdiscs info.address with
      | none =>
          refine ⟨⟨rfl, fun _ _ => rfl⟩, ?_, rfl⟩
          intro q hq'
          rw [hq] at hq'
          cases hq'
      | some q =>
          rw [Qdisc.qdiscs, List.map_cons, List.nodup_cons] at hnodup
          obtain ⟨hfresh, hnodup⟩ := hnodup
          have hbits : (if info.gred then 4 else countBits (q.numClasses + 1) 0)
              = q.ownBits := by
            rw [hgred info List.mem_cons_self]
            rfl
          dsimp only
          rw [hbits]
          let qdiscs₁ :=
            updateQdisc info.address ({ · with bits := q.ownBits }) qdiscs
          obtain ⟨hresized, hlaid, hmax⟩ := maxBits_computes qdiscs₁ 0 classes
            hnodup fun q hq => hgred q (List.mem_cons_of_mem _ hq)
          have hfirst : Resized [info.address] qdiscs qdiscs₁ :=
            .update fun _ => rfl
          generalize maxBits qdiscs₁ 0 classes = result at *
          obtain ⟨qdiscs₂, shift⟩ := result
          dsimp only at hresized hlaid hmax ⊢
          have hlast : Resized [info.address] qdiscs₂
              (updateQdisc info.address ({ · with shift }) qdiscs₂) :=
            .update fun _ => rfl
          have hshift : shift = widths qdiscs classes := by
            rw [hmax, Nat.zero_max, widths_congr hfirst.core]
          constructor
          case resized =>
            refine ⟨((hfirst.trans hresized).trans hlast).core, fun a ha => ?_⟩
            rw [Qdisc.qdiscs, List.map_cons, List.mem_cons, not_or] at ha
            apply ((hfirst.trans hresized).trans hlast).others
            simp only [List.mem_append, List.mem_singleton, not_or]
            exact ⟨ha, ha.1⟩
          case laid =>
            intro q' hq'
            dsimp only at hq' ⊢
            rw [findQdisc_update (f := ({ · with shift })) fun _ => rfl,
              if_pos rfl, hresized.others _ hfresh,
              findQdisc_update (f := ({ · with bits := q.ownBits }))
                fun _ => rfl, if_pos rfl, hq] at hq'
            cases hq'
            refine ⟨rfl, ?_, LaidOut.resized hlast classes hlaid ?_⟩
            · rw [widths_congr hlast.core, widths_congr hresized.core,
                widths_congr hfirst.core]
              exact hshift
            · intro q' hq' heq
              apply hfresh
              rw [← List.mem_singleton.mp heq]
              exact List.mem_map_of_mem hq'
          case bits => rw [hshift]

theorem maxBits_computes (qdiscs : List SelQdisc) (m : Nat) (t : InnerClasses)
    (hnodup : (t.qdiscs.map QdiscInfo.address).Nodup)
    (hgred : ∀ q ∈ t.qdiscs, q.gred = false) :
    Computed (t.qdiscs.map QdiscInfo.address) qdiscs (LaidOut · t)
      (max m (widths qdiscs t)) (maxBits qdiscs m t) := by
  match t with
  | .null =>
      refine ⟨⟨rfl, fun _ _ => rfl⟩, trivial, ?_⟩
      simp [maxBits, widths]
  | .class info qdisc child next =>
      simp only [Classes.qdiscs, List.map_append, List.nodup_append,
        List.mem_append] at hnodup hgred
      obtain ⟨hqdisc, ⟨hchild, hnext, hapart⟩, hapart'⟩ := hnodup
      obtain ⟨hresized, hlaid, hbits⟩ := selectionBits_computes qdiscs qdisc
        hqdisc fun q hq => hgred q (.inl hq)
      unfold maxBits widths
      generalize selectionBits qdiscs qdisc = result at *
      obtain ⟨qdiscs₁, bits⟩ := result
      dsimp only at hresized hlaid hbits ⊢
      obtain ⟨hresized₁, hlaid₁, hbits₁⟩ := maxBits_computes qdiscs₁ 0 child
        hchild fun q hq => hgred q (.inr (.inl hq))
      generalize maxBits qdiscs₁ 0 child = result at *
      obtain ⟨qdiscs₂, bits₁⟩ := result
      dsimp only at hresized₁ hlaid₁ hbits₁ ⊢
      obtain ⟨hresized₂, hlaid₂, hbits₂⟩ := maxBits_computes qdiscs₂
        (if bits₁ > if bits > m then bits else m then bits₁
          else if bits > m then bits else m) next hnext fun q hq =>
            hgred q (.inr (.inr hq))
      constructor
      case resized =>
        have hall := (hresized.trans hresized₁).trans hresized₂
        refine ⟨hall.core, fun a ha => hall.others a ?_⟩
        simpa [Classes.qdiscs, or_assoc] using ha
      case laid =>
        refine ⟨?_, ?_, hlaid₂⟩
        · apply Laid.resized (hresized₁.trans hresized₂) qdisc hlaid
          intro q hq hmem
          exact hapart' _ (List.mem_map_of_mem hq) _
            (List.mem_append.mp hmem) rfl
        · apply LaidOut.resized hresized₂ child hlaid₁
          intro q hq hmem
          exact hapart _ (List.mem_map_of_mem hq) _ hmem rfl
      case bits =>
        rw [hbits₂, widths_congr hresized₁.core, widths_congr hresized.core]
        rw [widths_congr hresized.core] at hbits₁
        split <;> split <;> omega

end

/-! ## Numbers of paths -/

theorem countBits_le (limit bits : Nat) : limit ≤ 2 ^ countBits limit bits := by
  induction bits using countBits.induct limit with
  | case1 bits hless ih =>
      rw [countBits, if_pos hless]
      exact ih
  | case2 bits hless =>
      rw [countBits, if_neg hless]
      omega

section

variable {qdiscs : List SelQdisc}

theorem members_laidOut {t : InnerClasses} (h : LaidOut qdiscs t) :
    ∀ member ∈ t.members, Laid qdiscs member.2 ∧
      width qdiscs member.2 ≤ widths qdiscs t := by
  match t with
  | .null => exact fun _ h => (List.not_mem_nil h).elim
  | .class info qdisc child next =>
      obtain ⟨hqdisc, hchild, hnext⟩ := h
      intro member hmem
      simp only [Classes.members, List.mem_cons, List.mem_append] at hmem
      unfold widths
      rcases hmem with rfl | hmem | hmem
      · exact ⟨hqdisc, Nat.le_max_left _ _⟩
      · obtain ⟨hlaid, hle⟩ := members_laidOut hchild member hmem
        exact ⟨hlaid, by omega⟩
      · obtain ⟨hlaid, hle⟩ := members_laidOut hnext member hmem
        exact ⟨hlaid, by omega⟩

/-- What is registered for a class. -/
structure Finds (qdiscs : List SelQdisc) (cl : ClassInfo) (q : SelQdisc)
    (c : SelClass) : Prop where
  qdisc : findQdisc qdiscs cl.parent.address = some q
  mem : c ∈ q.classes
  address : c.info.address = cl.address
  found : findClass qdiscs cl = .ok (q, c)

theorem HasNumber.finds {cl : ClassInfo} (h : HasNumber qdiscs cl) :
    ∃ q c, Finds qdiscs cl q c := by
  obtain ⟨q, hq, c, hc, haddress⟩ := h
  cases hfind : q.classes.find? (·.info.address == cl.address) with
  | none =>
      have := List.find?_eq_none.mp hfind c hc
      exact absurd (by simpa using haddress) this
  | some c' =>
      have haddress' := List.find?_some hfind
      refine ⟨q, c', hq, List.mem_of_find?_eq_some hfind,
        by simpa using haddress', ?_⟩
      unfold findClass
      rw [hq]
      dsimp only
      rw [hfind]

/-- The bits that a path sets. -/
def pathValue (qdiscs : List SelQdisc) : List ClassInfo → Nat
  | [] => 0
  | cl :: path =>
      (match findClass qdiscs cl with
        | .ok (q, c) => 2 ^ q.shift * c.number
        | .error _ => 0) + pathValue qdiscs path

theorem Finds.pathValue {cl : ClassInfo} {q : SelQdisc} {c : SelClass}
    (h : Finds qdiscs cl q c) (path : List ClassInfo) :
    pathValue qdiscs (cl :: path) =
      2 ^ q.shift * c.number + Csp.pathValue qdiscs path := by
  rw [Csp.pathValue, h.found]

/-- A qdisc on a path with what is known about its part of the bits. -/
structure Placed (qdiscs : List SelQdisc) (info : QdiscInfo)
    (classes : InnerClasses) (q : SelQdisc) : Prop where
  width : width qdiscs (.qdisc info classes) = q.shift + q.bits
  below : ∀ member ∈ classes.members, Laid qdiscs member.2 ∧
    Csp.width qdiscs member.2 ≤ q.shift
  counted : q.Counted
  range : ∀ c ∈ q.classes, 0 < c.number ∧ c.number < 2 ^ q.bits

theorem CountedQdiscs.placed (h : CountedQdiscs qdiscs) {info : QdiscInfo}
    {classes : InnerClasses} (hlaid : Laid qdiscs (.qdisc info classes))
    {q : SelQdisc} (hq : findQdisc qdiscs info.address = some q) :
    Placed qdiscs info classes q := by
  obtain ⟨hbits, hshift, hclasses⟩ := hlaid q hq
  have hcounted := h.counted q (findQdisc_some hq).1
  constructor
  case width =>
    unfold Csp.width
    rw [hq, hshift, hbits]
  case below =>
    rw [hshift]
    exact members_laidOut hclasses
  case counted => exact hcounted
  case range =>
    intro c hc
    have hrange := hcounted.range c hc
    have hle := countBits_le (q.numClasses + 1) 0
    rw [hbits, SelQdisc.ownBits]
    omega

variable (hqdiscs : CountedQdiscs qdiscs)

include hqdiscs

/-- The first step of a path. -/
theorem CountedQdiscs.head {info : QdiscInfo} {classes : InnerClasses}
    {cl : ClassInfo} {below : InnerQdisc} (hmem : (cl, below) ∈ classes.members)
    (howned : Owned (.qdisc info classes))
    (hlaid : Laid qdiscs (.qdisc info classes)) (hcl : HasNumber qdiscs cl) :
    ∃ q c, findQdisc qdiscs info.address = some q ∧ Finds qdiscs cl q c ∧
      Placed qdiscs info classes q ∧ Owned below ∧ Laid qdiscs below ∧
        width qdiscs below ≤ q.shift := by
  obtain ⟨hparent, hbelow⟩ := members_ownedBy howned _ hmem
  obtain ⟨q, c, hfinds⟩ := hcl.finds
  have hq := hfinds.qdisc
  rw [hparent] at hq
  have hplaced := hqdiscs.placed hlaid hq
  obtain ⟨hlaid', hle⟩ := hplaced.below _ hmem
  exact ⟨q, c, hq, hfinds, hplaced, hbelow, hlaid', hle⟩

theorem CountedQdiscs.pathValue_pos {info : QdiscInfo}
    {classes : InnerClasses} {cl : ClassInfo} {below : InnerQdisc}
    (hmem : (cl, below) ∈ classes.members) (howned : Owned (.qdisc info classes))
    (hlaid : Laid qdiscs (.qdisc info classes)) (hcl : HasNumber qdiscs cl)
    (path : List ClassInfo) : pathValue qdiscs (cl :: path) ≠ 0 := by
  obtain ⟨q, c, -, hfinds, hplaced, -⟩ := hqdiscs.head hmem howned hlaid hcl
  rw [hfinds.pathValue]
  have := Nat.mul_pos (Nat.two_pow_pos q.shift) (hplaced.range c hfinds.mem).1
  omega

theorem QdiscPath.pathValue_lt {t : InnerQdisc} {path : List ClassInfo}
    (h : QdiscPath t path) (howned : Owned t) (hlaid : Laid qdiscs t)
    (hnumbers : ∀ cl ∈ path, HasNumber qdiscs cl) :
    pathValue qdiscs path < 2 ^ width qdiscs t := by
  induction h with
  | done => exact Nat.two_pow_pos _
  | step hmem hpath ih =>
      rename_i info classes cl below path
      obtain ⟨q, c, -, hfinds, hplaced, hbelow, hlaid', hle⟩ :=
        hqdiscs.head hmem howned hlaid (hnumbers cl List.mem_cons_self)
      have hrest : pathValue qdiscs path < 2 ^ q.shift :=
        Nat.lt_of_lt_of_le (ih hbelow hlaid' fun cl hcl =>
          hnumbers cl (List.mem_cons_of_mem _ hcl))
          (Nat.pow_le_pow_right (by omega) hle)
      rw [hfinds.pathValue, hplaced.width, Nat.pow_add]
      calc 2 ^ q.shift * c.number + pathValue qdiscs path
          < 2 ^ q.shift * c.number + 2 ^ q.shift := by omega
        _ = 2 ^ q.shift * (c.number + 1) := (Nat.mul_succ _ _).symm
        _ ≤ 2 ^ q.shift * 2 ^ q.bits :=
          Nat.mul_le_mul_left _ (hplaced.range c hfinds.mem).2

/-- Each qdisc on the path finds the number of the class in its bits. -/
theorem QdiscPath.decodes {t : InnerQdisc} {path : List ClassInfo}
    (h : QdiscPath t path) (howned : Owned t) (hlaid : Laid qdiscs t)
    (hnumbers : ∀ cl ∈ path, HasNumber qdiscs cl) {n : Nat}
    (hn : n % 2 ^ width qdiscs t = pathValue qdiscs path) :
    ∀ cl ∈ path, ∃ q c, Finds qdiscs cl q c ∧
      q.shift + q.bits ≤ width qdiscs t ∧
      (∀ c ∈ q.classes, 0 < c.number ∧ c.number < 2 ^ q.bits) ∧
        n / 2 ^ q.shift % 2 ^ q.bits = c.number := by
  induction h with
  | done => exact fun _ h => (List.not_mem_nil h).elim
  | step hmem hpath ih =>
      rename_i info classes cl below path
      obtain ⟨q, c, -, hfinds, hplaced, hbelow, hlaid', hle⟩ :=
        hqdiscs.head hmem howned hlaid (hnumbers cl List.mem_cons_self)
      have hnumbers' : ∀ cl ∈ path, HasNumber qdiscs cl := fun cl hcl =>
        hnumbers cl (List.mem_cons_of_mem _ hcl)
      have hrest := hpath.pathValue_lt hqdiscs hbelow hlaid' hnumbers'
      have hrest' : pathValue qdiscs path < 2 ^ q.shift :=
        Nat.lt_of_lt_of_le hrest (Nat.pow_le_pow_right (by omega) hle)
      rw [hfinds.pathValue, hplaced.width] at hn
      intro cl' hcl'
      rcases List.mem_cons.mp hcl' with rfl | hcl'
      · refine ⟨q, c, hfinds, by rw [hplaced.width], hplaced.range, ?_⟩
        rw [← Nat.mod_mul_right_div_self, ← Nat.pow_add, hn,
          Nat.mul_add_div (Nat.two_pow_pos _), Nat.div_eq_of_lt hrest',
          Nat.add_zero]
      · have hn' : n % 2 ^ width qdiscs below = pathValue qdiscs path := by
          have hdvd : 2 ^ width qdiscs below ∣ 2 ^ q.shift :=
            Nat.pow_dvd_pow 2 hle
          have hdvd' : 2 ^ q.shift ∣ 2 ^ (q.shift + q.bits) :=
            Nat.pow_dvd_pow 2 (Nat.le_add_right _ _)
          rw [← Nat.mod_mod_of_dvd _ (hdvd.trans hdvd'), hn, Nat.add_mod,
            Nat.mul_mod, Nat.mod_eq_zero_of_dvd hdvd, Nat.zero_mul,
            Nat.zero_mod, Nat.zero_add, Nat.mod_mod, Nat.mod_eq_of_lt hrest]
        obtain ⟨q', c', hfinds', hle', hrange', hnumber⟩ :=
          ih hbelow hlaid' hnumbers' hn' cl' hcl'
        refine ⟨q', c', hfinds', ?_, hrange', hnumber⟩
        rw [hplaced.width]
        omega

/-- Different paths set different bits. -/
theorem QdiscPath.pathValue_inj {t : InnerQdisc} {path path' : List ClassInfo}
    (h : QdiscPath t path) (h' : QdiscPath t path') (howned : Owned t)
    (hlaid : Laid qdiscs t)
    (hnodup : (t.classInfos.map ClassInfo.address).Nodup)
    (hnumbers : ∀ cl ∈ path, HasNumber qdiscs cl)
    (hnumbers' : ∀ cl ∈ path', HasNumber qdiscs cl)
    (heq : pathValue qdiscs path = pathValue qdiscs path') : path = path' := by
  induction h generalizing path' with
  | done =>
      cases h' with
      | done => rfl
      | step hmem' _ =>
          exact absurd heq.symm (hqdiscs.pathValue_pos hmem' howned hlaid
            (hnumbers' _ List.mem_cons_self) _)
  | step hmem hpath ih =>
      rename_i info classes cl below path
      have hcl := hnumbers cl List.mem_cons_self
      cases h' with
      | done =>
          exact absurd heq (hqdiscs.pathValue_pos hmem howned hlaid hcl _)
      | step hmem' hpath' =>
          rename_i cl' below' path'
          obtain ⟨q, c, hq, hfinds, hplaced, hbelow, hlaid₁, hle⟩ :=
            hqdiscs.head hmem howned hlaid hcl
          obtain ⟨q', c', hq', hfinds', -, hbelow', hlaid₁', hle'⟩ :=
            hqdiscs.head hmem' howned hlaid (hnumbers' _ List.mem_cons_self)
          cases Option.some.inj (hq.symm.trans hq')
          have hnumbers₁ : ∀ cl ∈ path, HasNumber qdiscs cl := fun cl hcl =>
            hnumbers cl (List.mem_cons_of_mem _ hcl)
          have hnumbers₁' : ∀ cl ∈ path', HasNumber qdiscs cl := fun cl hcl =>
            hnumbers' cl (List.mem_cons_of_mem _ hcl)
          have hless := Nat.lt_of_lt_of_le
            (hpath.pathValue_lt hqdiscs hbelow hlaid₁ hnumbers₁)
            (Nat.pow_le_pow_right (by omega) hle)
          have hless' := Nat.lt_of_lt_of_le
            (hpath'.pathValue_lt hqdiscs hbelow' hlaid₁' hnumbers₁')
            (Nat.pow_le_pow_right (by omega) hle')
          rw [hfinds.pathValue, hfinds'.pathValue] at heq
          -- the numbers agree above the shift, the rest below it
          have hnumber : c.number = c'.number := by
            have hdiv := congrArg (· / 2 ^ q.shift) heq
            simpa only [Nat.mul_add_div (Nat.two_pow_pos _),
              Nat.div_eq_of_lt hless, Nat.div_eq_of_lt hless',
              Nat.add_zero] using hdiv
          have hrest : pathValue qdiscs path = pathValue qdiscs path' := by
            rw [hnumber] at heq
            omega
          have hsame : c = c' := List.inj_on_of_nodup_map
            hplaced.counted.numbers hfinds.mem hfinds'.mem hnumber
          have haddress : cl.address = cl'.address := by
            rw [← hfinds.address, ← hfinds'.address, hsame]
          obtain ⟨hsub, -⟩ := members_sublist hmem
          obtain ⟨rfl, rfl⟩ := members_inj hnodup hmem hmem' haddress
          rw [ih hpath' hbelow hlaid₁ _ hnumbers₁ hnumbers₁' hrest]
          exact hnodup.sublist (((List.sublist_cons_self _ _).trans hsub).map _)

/-- The loop over a path puts its bits below those there are. -/
theorem QdiscPath.pathNumber {t : InnerQdisc} {path : List ClassInfo}
    (h : QdiscPath t path) (howned : Owned t) (hlaid : Laid qdiscs t)
    (hnumbers : ∀ cl ∈ path, HasNumber qdiscs cl) {x : Nat}
    (hx : 2 ^ width qdiscs t ∣ x) :
    pathNumber qdiscs (.ofNat 32 x) path =
      .ok (.ofNat 32 (x + pathValue qdiscs path)) := by
  induction h generalizing x with
  | done => rfl
  | step hmem hpath ih =>
      rename_i info classes cl below path
      obtain ⟨q, c, -, hfinds, hplaced, hbelow, hlaid', hle⟩ :=
        hqdiscs.head hmem howned hlaid (hnumbers cl List.mem_cons_self)
      have hless : 2 ^ q.shift * c.number < 2 ^ width qdiscs (.qdisc info classes)
          := by
        rw [hplaced.width, Nat.pow_add]
        exact Nat.mul_lt_mul_of_pos_left (hplaced.range c hfinds.mem).2
          (Nat.two_pow_pos _)
      obtain ⟨y, rfl⟩ := hx
      have hor : BitVec.ofNat 32 (2 ^ width qdiscs (.qdisc info classes) * y) |||
          BitVec.ofNat 32 (c.number <<< q.shift) =
            .ofNat 32 (2 ^ width qdiscs (.qdisc info classes) * y +
              2 ^ q.shift * c.number) := by
        rw [Nat.two_pow_add_eq_or_of_lt hless, BitVec.ofNat_or,
          Nat.shiftLeft_eq, Nat.mul_comm c.number]
      unfold Csp.pathNumber
      rw [hfinds.found]
      change Csp.pathNumber qdiscs (_ ||| _) path = _
      rw [hor, hfinds.pathValue, ih hbelow hlaid' fun cl hcl =>
        hnumbers cl (List.mem_cons_of_mem _ hcl), Nat.add_assoc]
      rw [hplaced.width, Nat.pow_add, Nat.mul_assoc, ← Nat.mul_add]
      exact (Nat.pow_dvd_pow 2 hle).trans (Nat.dvd_mul_right _ _)

end

end Tcng.Csp
