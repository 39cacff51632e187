import Tcng.Tree.SelectionFilters

/-! Numbers of paths where some end in `gred` qdiscs. -/

namespace Tcng.Csp

open Program

/-! ## What is registered -/

/-- The numbers that `register_sel_class` gives. -/
structure SelQdisc.Numbered (q : SelQdisc) : Prop where
  addresses : (q.classes.map (·.info.address)).Nodup
  parents : ∀ c ∈ q.classes, c.info.parent = q.qdisc
  gred : q.qdisc.gred = true → ∀ c ∈ q.classes, c.number = c.info.number
  different : q.qdisc.gred = false → (q.classes.map SelClass.number).Nodup
  counted : q.qdisc.gred = false →
    q.numClasses = q.classes.length ∧
      ∀ c ∈ q.classes, 0 < c.number ∧ c.number ≤ q.numClasses

theorem SelQdisc.register_qdisc (q : SelQdisc) (cl : ClassInfo) :
    (q.register cl).qdisc = q.qdisc := by
  unfold SelQdisc.register
  split
  · rfl
  · split <;> rfl

theorem SelQdisc.register_classes (q : SelQdisc) (cl : ClassInfo) :
    q.classes ⊆ (q.register cl).classes ∧
      (∃ c ∈ (q.register cl).classes, c.info.address = cl.address) ∧
        ∀ c ∈ (q.register cl).classes, c ∈ q.classes ∨ c.info = cl := by
  unfold SelQdisc.register
  split
  case isTrue hany =>
    obtain ⟨c, hc, haddress⟩ := List.any_eq_true.mp hany
    exact ⟨fun _ hc => hc, ⟨c, hc, by simpa using haddress⟩, fun _ => .inl⟩
  case isFalse =>
    split
    · exact ⟨List.subset_cons_self _ _, ⟨_, List.mem_cons_self, rfl⟩,
        fun c hc => (List.mem_cons.mp hc).elim (fun h => .inr (by rw [h])) .inl⟩
    · exact ⟨List.subset_cons_self _ _, ⟨_, List.mem_cons_self, rfl⟩,
        fun c hc => (List.mem_cons.mp hc).elim (fun h => .inr (by rw [h])) .inl⟩

theorem SelQdisc.Numbered.register {q : SelQdisc} (h : q.Numbered)
    {cl : ClassInfo} (hparent : cl.parent = q.qdisc) :
    (q.register cl).Numbered := by
  unfold SelQdisc.register
  split
  case isTrue => exact h
  case isFalse hnone =>
    have hfresh : cl.address ∉ q.classes.map (·.info.address) := by
      intro hmem
      obtain ⟨c, hc, heq⟩ := List.mem_map.mp hmem
      exact hnone (List.any_eq_true.mpr ⟨c, hc, by simpa using heq⟩)
    split
    case isTrue hgred =>
      have hnot : ¬q.qdisc.gred = false := by simp [hgred]
      refine ⟨List.nodup_cons.mpr ⟨hfresh, h.addresses⟩,
        List.forall_mem_cons.mpr ⟨hparent, h.parents⟩,
        fun _ => List.forall_mem_cons.mpr ⟨rfl, h.gred hgred⟩,
        fun hf => absurd hf hnot, fun hf => absurd hf hnot⟩
    case isFalse hgred =>
      have hplain : q.qdisc.gred = false := Bool.eq_false_iff.mpr hgred
      obtain ⟨hcount, hrange⟩ := h.counted hplain
      refine ⟨List.nodup_cons.mpr ⟨hfresh, h.addresses⟩,
        List.forall_mem_cons.mpr ⟨hparent, h.parents⟩,
        fun ht => absurd ht hgred, fun _ => List.nodup_cons.mpr
          ⟨fun hmem => ?_, h.different hplain⟩, fun _ => ⟨?_, ?_⟩⟩
      · obtain ⟨c, hc, heq⟩ := List.mem_map.mp hmem
        have := (hrange c hc).2
        dsimp only at heq
        omega
      · rw [List.length_cons, hcount]
      · refine List.forall_mem_cons.mpr
          ⟨⟨Nat.succ_pos _, Nat.le_refl _⟩, fun c hc => ?_⟩
        exact ⟨(hrange c hc).1, Nat.le_succ_of_le (hrange c hc).2⟩

theorem findQdisc_registerSelClass (qdiscs : List SelQdisc) (cl : ClassInfo)
    (a : Nat) : findQdisc (registerSelClass qdiscs cl) a =
      if a = cl.parent.address then
        some (((findQdisc qdiscs a).getD
          { qdisc := cl.parent, classes := [], numClasses := 0 }).register cl)
      else findQdisc qdiscs a := by
  unfold registerSelClass
  cases hfind : findQdisc qdiscs cl.parent.address with
  | none =>
      dsimp only
      rw [findQdisc_cons, SelQdisc.register_qdisc]
      by_cases ha : a = cl.parent.address
      · rw [if_pos ha.symm, if_pos ha, ha, hfind, Option.getD_none]
      · rw [if_neg (Ne.symm ha), if_neg ha]
  | some q =>
      dsimp only
      rw [findQdisc_update fun q => SelQdisc.register_qdisc q cl]
      by_cases ha : a = cl.parent.address
      · rw [if_pos ha, if_pos ha, ha, hfind, Option.getD_some, Option.map_some]
      · rw [if_neg ha, if_neg ha]

/-- The qdiscs as registered for some classes. -/
structure Gathered (used : List ClassInfo) (qdiscs : List SelQdisc) : Prop where
  found : ∀ cl ∈ used, HasNumber qdiscs cl
  numbered : ∀ {a q}, findQdisc qdiscs a = some q → q.Numbered
  used : ∀ {a q}, findQdisc qdiscs a = some q →
    q.classes ≠ [] ∧ ∀ c ∈ q.classes, c.info ∈ used

theorem gathered_nil : Gathered [] [] :=
  ⟨fun _ h => absurd h List.not_mem_nil, nofun, nofun⟩

/-- Qdiscs and classes are told apart by their addresses. -/
structure Distinguished (used : List ClassInfo) : Prop where
  parents : ∀ cl ∈ used, ∀ cl' ∈ used,
    cl.parent.address = cl'.parent.address → cl.parent = cl'.parent
  classes : ∀ cl ∈ used, ∀ cl' ∈ used, cl.address = cl'.address → cl = cl'

theorem Gathered.register {used : List ClassInfo} {qdiscs : List SelQdisc}
    (h : Gathered used qdiscs) {cl : ClassInfo}
    (hused : Distinguished (cl :: used)) :
    Gathered (cl :: used) (registerSelClass qdiscs cl) := by
  have hempty : SelQdisc.Numbered
      { qdisc := cl.parent, classes := [], numClasses := 0 } :=
    ⟨List.nodup_nil, nofun, fun _ => nofun, fun _ => List.nodup_nil,
      fun _ => ⟨rfl, nofun⟩⟩
  have hold : ((findQdisc qdiscs cl.parent.address).getD
      { qdisc := cl.parent, classes := [], numClasses := 0 }).Numbered ∧
      cl.parent = ((findQdisc qdiscs cl.parent.address).getD
        { qdisc := cl.parent, classes := [], numClasses := 0 }).qdisc ∧
      ∀ c ∈ ((findQdisc qdiscs cl.parent.address).getD
        { qdisc := cl.parent, classes := [], numClasses := 0 }).classes,
        c.info ∈ used := by
    cases hfind : findQdisc qdiscs cl.parent.address with
    | none => exact ⟨hempty, rfl, nofun⟩
    | some q =>
        obtain ⟨hne, hmem⟩ := h.used hfind
        obtain ⟨c, hc⟩ := List.exists_mem_of_ne_nil _ hne
        have hparent := (h.numbered hfind).parents c hc
        refine ⟨h.numbered hfind, ?_, hmem⟩
        rw [Option.getD_some, ← hparent]
        refine hused.parents _ List.mem_cons_self _
          (List.mem_cons_of_mem _ (hmem c hc)) ?_
        rw [hparent, (findQdisc_some hfind).2]
  obtain ⟨hnumbered, hparent, hmem⟩ := hold
  obtain ⟨hsub, hhas, hfrom⟩ := SelQdisc.register_classes
    ((findQdisc qdiscs cl.parent.address).getD
      { qdisc := cl.parent, classes := [], numClasses := 0 }) cl
  constructor
  case found =>
    intro cl' hcl'
    by_cases hsame : cl'.parent.address = cl.parent.address
    · refine ⟨_, by rw [findQdisc_registerSelClass, if_pos hsame], ?_⟩
      rw [hsame]
      rcases List.mem_cons.mp hcl' with rfl | hcl'
      · exact hhas
      · obtain ⟨q, hq, c, hc, haddress⟩ := h.found cl' hcl'
        rw [hsame] at hq
        rw [hq, Option.getD_some] at hsub ⊢
        exact ⟨c, hsub hc, haddress⟩
    · rcases List.mem_cons.mp hcl' with rfl | hcl'
      · exact absurd rfl hsame
      · obtain ⟨q, hq, hc⟩ := h.found cl' hcl'
        exact ⟨q, by rw [findQdisc_registerSelClass, if_neg hsame, hq], hc⟩
  case numbered =>
    intro a q hq
    rw [findQdisc_registerSelClass] at hq
    split at hq
    case isTrue ha =>
      subst ha
      obtain rfl := Option.some.inj hq
      exact hnumbered.register hparent
    case isFalse => exact h.numbered hq
  case used =>
    intro a q hq
    rw [findQdisc_registerSelClass] at hq
    split at hq
    case isTrue ha =>
      subst ha
      obtain rfl := Option.some.inj hq
      refine ⟨fun hnil => ?_, fun c hc => ?_⟩
      · obtain ⟨c, hc, -⟩ := hhas
        rw [hnil] at hc
        cases hc
      · rcases hfrom c hc with hc | rfl
        · exact List.mem_cons_of_mem _ (hmem c hc)
        · exact List.mem_cons_self
    case isFalse =>
      obtain ⟨hne, hmem'⟩ := h.used hq
      exact ⟨hne, fun c hc => List.mem_cons_of_mem _ (hmem' c hc)⟩

/-! ## Bits for the paths -/

/-- How many classes of a qdisc are on the paths. -/
def usedClasses (used : List ClassInfo) (info : QdiscInfo) : Nat :=
  ((used.filter (·.parent.address == info.address)).map
    ClassInfo.address).toFinset.card

/-- The bits reserved for a qdisc with some classes on the paths. -/
def reservedBits (info : QdiscInfo) (classes : Nat) : Nat :=
  if info.gred then 4 else countBits (classes + 1) 0

mutual

/-- The bits that the paths need below a place of the tree. -/
def pathBits (used : List ClassInfo) : InnerQdisc → Nat
  | .null => 0
  | .qdisc info classes =>
      if used.any (·.parent.address == info.address) then
        pathBitsIn used classes + reservedBits info (usedClasses used info)
      else 0

def pathBitsIn (used : List ClassInfo) : InnerClasses → Nat
  | .null => 0
  | .class _ qdisc child next =>
      max (pathBits used qdisc)
        (max (pathBitsIn used child) (pathBitsIn used next))

end

mutual

/-- Each qdisc has its bits above those of the qdiscs below. -/
def Arranged (used : List ClassInfo) (qdiscs : List SelQdisc) :
    InnerQdisc → Prop
  | .null => True
  | .qdisc info classes =>
      ∀ q, findQdisc qdiscs info.address = some q →
        q.bits = reservedBits info (usedClasses used info) ∧
          q.shift = pathBitsIn used classes ∧ ArrangedIn used qdiscs classes

def ArrangedIn (used : List ClassInfo) (qdiscs : List SelQdisc) :
    InnerClasses → Prop
  | .null => True
  | .class _ qdisc child next =>
      Arranged used qdiscs qdisc ∧ ArrangedIn used qdiscs child ∧
        ArrangedIn used qdiscs next

end

section

variable {used : List ClassInfo} {qdiscs qdiscs' : List SelQdisc}

/-- The qdiscs and classes that are known for a list of classes. -/
structure Tallied (used : List ClassInfo) (qdiscs : List SelQdisc) : Prop where
  unknown : ∀ {a}, findQdisc qdiscs a = none →
    used.any (·.parent.address == a) = false
  known : ∀ {a q}, findQdisc qdiscs a = some q →
    used.any (·.parent.address == a) = true
  count : ∀ {info q}, findQdisc qdiscs info.address = some q →
    info.gred = q.qdisc.gred → info.gred = false →
      q.numClasses = usedClasses used info

theorem Gathered.tallied (h : Gathered used qdiscs) : Tallied used qdiscs := by
  constructor
  case unknown =>
    intro a ha
    rw [List.any_eq_false]
    intro cl hcl hparent
    obtain ⟨q, hq, -⟩ := h.found cl hcl
    rw [beq_iff_eq.mp hparent, ha] at hq
    cases hq
  case known =>
    intro a q hq
    obtain ⟨hne, hmem⟩ := h.used hq
    obtain ⟨c, hc⟩ := List.exists_mem_of_ne_nil _ hne
    rw [List.any_eq_true]
    refine ⟨c.info, hmem c hc, ?_⟩
    rw [(h.numbered hq).parents c hc, (findQdisc_some hq).2, beq_iff_eq]
  case count =>
    intro info q hq hsame hgred
    have hnumbered := h.numbered hq
    have haddress := (findQdisc_some hq).2
    have hset : (q.classes.map (·.info.address)).toFinset =
        ((used.filter (·.parent.address == info.address)).map
          ClassInfo.address).toFinset := by
      ext x
      simp only [List.mem_toFinset, List.mem_map, List.mem_filter, beq_iff_eq]
      constructor
      · rintro ⟨c, hc, rfl⟩
        refine ⟨c.info, ⟨(h.used hq).2 c hc, ?_⟩, rfl⟩
        rw [hnumbered.parents c hc, haddress]
      · rintro ⟨cl, ⟨hcl, hparent⟩, rfl⟩
        obtain ⟨q', hq', c, hc, hclass⟩ := h.found cl hcl
        rw [hparent, hq] at hq'
        obtain rfl := Option.some.inj hq'
        exact ⟨c, hc, hclass⟩
    rw [(hnumbered.counted (hsame ▸ hgred)).1, usedClasses, ← hset,
      List.toFinset_card_of_nodup hnumbered.addresses, List.length_map]

theorem Tallied.core (h : Tallied used qdiscs)
    (hcore : qdiscs'.map SelQdisc.core = qdiscs.map SelQdisc.core) :
    Tallied used qdiscs' := by
  constructor
  case unknown =>
    intro a ha
    have hsame := findQdisc_core hcore a
    rw [ha] at hsame
    exact h.unknown (Option.map_eq_none_iff.mp hsame.symm)
  case known =>
    intro a q hq
    obtain ⟨q', hq', -⟩ := findQdisc_core_some hcore hq
    exact h.known hq'
  case count =>
    intro info q hq hsame hgred
    obtain ⟨q', hq', heq⟩ := findQdisc_core_some hcore hq
    have hqdisc : q.qdisc = q'.qdisc := congrArg Prod.fst heq
    have hnum : q.numClasses = q'.numClasses := congrArg (·.2.2) heq
    rw [hnum]
    exact h.count hq' (hqdisc ▸ hsame) hgred

mutual

theorem Arranged.resized {addresses : List Nat}
    (h : Resized addresses qdiscs qdiscs') (t : InnerQdisc)
    (ht : Arranged used qdiscs t) (hout : ∀ q ∈ t.qdiscs, q.address ∉ addresses) :
    Arranged used qdiscs' t := by
  match t with
  | .null => trivial
  | .qdisc info classes =>
      intro q hq
      rw [h.others _ (hout info List.mem_cons_self)] at hq
      obtain ⟨hbits, hshift, hclasses⟩ := ht q hq
      exact ⟨hbits, hshift, ArrangedIn.resized h classes hclasses fun q hq =>
        hout q (List.mem_cons_of_mem _ hq)⟩

theorem ArrangedIn.resized {addresses : List Nat}
    (h : Resized addresses qdiscs qdiscs') (t : InnerClasses)
    (ht : ArrangedIn used qdiscs t)
    (hout : ∀ q ∈ t.qdiscs, q.address ∉ addresses) :
    ArrangedIn used qdiscs' t := by
  match t with
  | .null => trivial
  | .class info qdisc child next =>
      obtain ⟨hqdisc, hchild, hnext⟩ := ht
      simp only [Classes.qdiscs, List.mem_append] at hout
      exact ⟨Arranged.resized h qdisc hqdisc fun q hq => hout q (.inl hq),
        ArrangedIn.resized h child hchild fun q hq => hout q (.inr (.inl hq)),
        ArrangedIn.resized h next hnext fun q hq => hout q (.inr (.inr hq))⟩

end

/-- The qdiscs of a tree are known as what they are. -/
def Agrees (qdiscs : List SelQdisc) (infos : List QdiscInfo) : Prop :=
  ∀ info ∈ infos, ∀ q, findQdisc qdiscs info.address = some q →
    info.gred = q.qdisc.gred

theorem Agrees.core {infos : List QdiscInfo} (h : Agrees qdiscs infos)
    (hcore : qdiscs'.map SelQdisc.core = qdiscs.map SelQdisc.core) :
    Agrees qdiscs' infos := by
  intro info hinfo q hq
  obtain ⟨q', hq', heq⟩ := findQdisc_core_some hcore hq
  have hqdisc : q.qdisc = q'.qdisc := congrArg Prod.fst heq
  rw [h info hinfo q' hq', hqdisc]

mutual

theorem selectionBits_arranges (qdiscs : List SelQdisc) (t : InnerQdisc)
    (hused : Tallied used qdiscs)
    (hagrees : Agrees qdiscs t.qdiscs)
    (hnodup : (t.qdiscs.map QdiscInfo.address).Nodup) :
    Computed (t.qdiscs.map QdiscInfo.address) qdiscs (Arranged used · t)
      (pathBits used t) (selectionBits qdiscs t) := by
  match t with
  | .null => exact ⟨⟨rfl, fun _ _ => rfl⟩, trivial, rfl⟩
  | .qdisc info classes =>
      unfold selectionBits pathBits
      cases hq : findQdisc qdiscs info.address with
      | none =>
          refine ⟨⟨rfl, fun _ _ => rfl⟩, fun q hq' => ?_, ?_⟩
          · rw [hq] at hq'
            cases hq'
          · rw [hused.unknown hq]
            rfl
      | some q =>
          rw [Qdisc.qdiscs, List.map_cons, List.nodup_cons] at hnodup
          obtain ⟨hfresh, hnodup⟩ := hnodup
          have hbits : (if info.gred then 4 else countBits (q.numClasses + 1) 0)
              = reservedBits info (usedClasses used info) := by
            unfold reservedBits
            cases hgred : info.gred with
            | true => rfl
            | false =>
                rw [hused.count hq (hagrees info List.mem_cons_self q hq) hgred]
          dsimp only
          rw [hbits, if_pos (hused.known hq)]
          let qdiscs₁ := updateQdisc info.address
            ({ · with bits := reservedBits info (usedClasses used info) }) qdiscs
          have hfirst : Resized [info.address] qdiscs qdiscs₁ :=
            .update fun _ => rfl
          obtain ⟨hresized, hlaid, hmax⟩ := maxBits_arranges qdiscs₁ classes 0
            (hused.core hfirst.core) (Agrees.core
              (fun info hinfo => hagrees info (List.mem_cons_of_mem _ hinfo))
              hfirst.core) hnodup
          generalize maxBits qdiscs₁ 0 classes = result at *
          obtain ⟨qdiscs₂, shift⟩ := result
          dsimp only at hresized hlaid hmax ⊢
          have hlast : Resized [info.address] qdiscs₂
              (updateQdisc info.address ({ · with shift }) qdiscs₂) :=
            .update fun _ => rfl
          rw [Nat.zero_max] at hmax
          constructor
          case resized =>
            refine ⟨((hfirst.trans hresized).trans hlast).core, fun a ha => ?_⟩
            rw [Qdisc.qdiscs, List.map_cons, List.mem_cons, not_or] at ha
            apply ((hfirst.trans hresized).trans hlast).others
            simp only [List.mem_append, List.mem_singleton, not_or]
            exact ⟨ha, ha.1⟩
          case laid =>
            intro q' hq'
            dsimp only at hq' ⊢
            rw [findQdisc_update (f := ({ · with shift })) fun _ => rfl,
              if_pos rfl, hresized.others _ hfresh, findQdisc_update
                (f := ({ · with
                  bits := reservedBits info (usedClasses used info) }))
                fun _ => rfl, if_pos rfl, hq] at hq'
            cases hq'
            refine ⟨rfl, hmax, ArrangedIn.resized hlast classes hlaid ?_⟩
            intro q' hq' heq
            apply hfresh
            rw [← List.mem_singleton.mp heq]
            exact List.mem_map_of_mem hq'
          case bits => rw [hmax]

theorem maxBits_arranges (qdiscs : List SelQdisc) (t : InnerClasses) (m : Nat)
    (hused : Tallied used qdiscs) (hagrees : Agrees qdiscs t.qdiscs)
    (hnodup : (t.qdiscs.map QdiscInfo.address).Nodup) :
    Computed (t.qdiscs.map QdiscInfo.address) qdiscs (ArrangedIn used · t)
      (max m (pathBitsIn used t)) (maxBits qdiscs m t) := by
  match t with
  | .null =>
      refine ⟨⟨rfl, fun _ _ => rfl⟩, trivial, ?_⟩
      simp [maxBits, pathBitsIn]
  | .class info qdisc child next =>
      simp only [Classes.qdiscs, List.map_append, List.nodup_append,
        List.mem_append] at hnodup
      rw [Classes.qdiscs] at hagrees
      obtain ⟨hqdisc, ⟨hchild, hnext, hapart⟩, hapart'⟩ := hnodup
      have hagrees₁ : Agrees qdiscs qdisc.qdiscs := fun info hinfo =>
        hagrees info (List.mem_append_left _ hinfo)
      have hagrees₂ : Agrees qdiscs child.qdiscs := fun info hinfo =>
        hagrees info (List.mem_append_right _ (List.mem_append_left _ hinfo))
      have hagrees₃ : Agrees qdiscs next.qdiscs := fun info hinfo =>
        hagrees info (List.mem_append_right _ (List.mem_append_right _ hinfo))
      obtain ⟨hresized, hlaid, hbits⟩ :=
        selectionBits_arranges qdiscs qdisc hused hagrees₁ hqdisc
      unfold maxBits pathBitsIn
      generalize selectionBits qdiscs qdisc = result at *
      obtain ⟨qdiscs₁, bits⟩ := result
      dsimp only at hresized hlaid hbits ⊢
      obtain ⟨hresized₁, hlaid₁, hbits₁⟩ := maxBits_arranges qdiscs₁ child 0
        (hused.core hresized.core) (hagrees₂.core hresized.core) hchild
      generalize maxBits qdiscs₁ 0 child = result at *
      obtain ⟨qdiscs₂, bits₁⟩ := result
      dsimp only at hresized₁ hlaid₁ hbits₁ ⊢
      have hcore := hresized₁.core.trans hresized.core
      obtain ⟨hresized₂, hlaid₂, hbits₂⟩ := maxBits_arranges qdiscs₂ next
        (if bits₁ > if bits > m then bits else m then bits₁
          else if bits > m then bits else m) (hused.core hcore)
        (hagrees₃.core hcore) hnext
      constructor
      case resized =>
        have hall := (hresized.trans hresized₁).trans hresized₂
        refine ⟨hall.core, fun a ha => hall.others a ?_⟩
        simpa [Classes.qdiscs, or_assoc] using ha
      case laid =>
        refine ⟨?_, ?_, hlaid₂⟩
        · apply Arranged.resized (hresized₁.trans hresized₂) qdisc hlaid
          intro q hq hmem
          exact hapart' _ (List.mem_map_of_mem hq) _
            (List.mem_append.mp hmem) rfl
        · apply ArrangedIn.resized hresized₂ child hlaid₁
          intro q hq hmem
          exact hapart _ (List.mem_map_of_mem hq) _ hmem rfl
      case bits =>
        rw [hbits₂]
        split <;> split <;> omega

end

end

/-! ## Numbers of paths -/

/-- What `gred_check` makes sure of. -/
structure GredClasses (classes : InnerClasses) : Prop where
  leaf : ∀ member ∈ classes.members, member.2 = .null
  range : ∀ member ∈ classes.members, member.1.number < 16
  different : (classes.members.map (·.1.number)).Nodup

mutual

def GredChecked : InnerQdisc → Prop
  | .null => True
  | .qdisc info classes =>
      (info.gred = true → GredClasses classes) ∧ GredCheckedIn classes

def GredCheckedIn : InnerClasses → Prop
  | .null => True
  | .class _ qdisc child next =>
      GredChecked qdisc ∧ GredCheckedIn child ∧ GredCheckedIn next

end

theorem gredChecked_members {t : InnerClasses} (h : GredCheckedIn t) :
    ∀ member ∈ t.members, GredChecked member.2 := by
  match t with
  | .null => exact fun _ h => absurd h List.not_mem_nil
  | .class info qdisc child next =>
      obtain ⟨hqdisc, hchild, hnext⟩ := h
      intro member hmem
      simp only [Classes.members, List.mem_cons, List.mem_append] at hmem
      rcases hmem with rfl | hmem | hmem
      · exact hqdisc
      · exact gredChecked_members hchild member hmem
      · exact gredChecked_members hnext member hmem

section

variable {used : List ClassInfo} {qdiscs : List SelQdisc}

theorem arranged_members {t : InnerClasses} (h : ArrangedIn used qdiscs t) :
    ∀ member ∈ t.members, Arranged used qdiscs member.2 ∧
      pathBits used member.2 ≤ pathBitsIn used t := by
  match t with
  | .null => exact fun _ h => absurd h List.not_mem_nil
  | .class info qdisc child next =>
      obtain ⟨hqdisc, hchild, hnext⟩ := h
      intro member hmem
      simp only [Classes.members, List.mem_cons, List.mem_append] at hmem
      unfold pathBitsIn
      rcases hmem with rfl | hmem | hmem
      · exact ⟨hqdisc, Nat.le_max_left _ _⟩
      · obtain ⟨harranged, hle⟩ := arranged_members hchild member hmem
        exact ⟨harranged, by omega⟩
      · obtain ⟨harranged, hle⟩ := arranged_members hnext member hmem
        exact ⟨harranged, by omega⟩

theorem pathBitsIn_leaf {t : InnerClasses}
    (h : ∀ member ∈ t.members, member.2 = .null) : pathBitsIn used t = 0 := by
  match t with
  | .null => rfl
  | .class info qdisc child next =>
      simp only [Classes.members, List.mem_cons, List.mem_append] at h
      have hqdisc : qdisc = .null := h (info, qdisc) (.inl rfl)
      rw [pathBitsIn, hqdisc, pathBits,
        pathBitsIn_leaf fun member hmem => h member (.inr (.inl hmem)),
        pathBitsIn_leaf fun member hmem => h member (.inr (.inr hmem))]
      rfl

/-- What is known about a place of the tree. -/
structure Suited (used : List ClassInfo) (qdiscs : List SelQdisc)
    (t : InnerQdisc) : Prop where
  owned : Owned t
  checked : GredChecked t
  arranged : Arranged used qdiscs t

/-- A class of a path, and what its number is among those of the qdisc. -/
structure Chosen (used : List ClassInfo) (qdiscs : List SelQdisc)
    (info : QdiscInfo) (classes : InnerClasses) (cl : ClassInfo)
    (below : InnerQdisc) (q : SelQdisc) (c : SelClass) : Prop where
  finds : Finds qdiscs cl q c
  same : c.info = cl
  total : pathBits used (.qdisc info classes) = q.shift + q.bits
  below : pathBits used below ≤ q.shift
  less : c.number < 2 ^ q.bits
  gred : info.gred = true → GredClasses classes ∧ q.shift = 0 ∧ q.bits = 4 ∧
    c.number = cl.number
  plain : info.gred = false →
    0 < c.number ∧ (q.classes.map SelClass.number).Nodup

/-- Everything that has been registered for the paths. -/
structure Known (used : List ClassInfo) (qdiscs : List SelQdisc) : Prop where
  gathered : Gathered used qdiscs
  distinguished : Distinguished used

variable (hknown : Known used qdiscs)

include hknown

theorem Known.finds {cl : ClassInfo} (hcl : cl ∈ used) :
    ∃ q c, Finds qdiscs cl q c ∧ c.info = cl ∧ q.qdisc = cl.parent ∧
      q.Numbered := by
  obtain ⟨q, c, hfinds⟩ := (hknown.gathered.found cl hcl).finds
  have hnumbered := hknown.gathered.numbered hfinds.qdisc
  have hinfo : c.info = cl := hknown.distinguished.classes _
    ((hknown.gathered.used hfinds.qdisc).2 c hfinds.mem) _ hcl hfinds.address
  refine ⟨q, c, hfinds, hinfo, ?_, hnumbered⟩
  rw [← hnumbered.parents c hfinds.mem, hinfo]

/-- The first class of a path. -/
theorem Known.chosen {info : QdiscInfo} {classes : InnerClasses}
    {cl : ClassInfo} {below : InnerQdisc}
    (ht : Suited used qdiscs (.qdisc info classes))
    (hmem : (cl, below) ∈ classes.members) (hcl : cl ∈ used) :
    cl.parent = info ∧ Suited used qdiscs below ∧
      ∃ q c, findQdisc qdiscs info.address = some q ∧
        Chosen used qdiscs info classes cl below q c := by
  obtain ⟨hparent, hbelow⟩ := members_ownedBy ht.owned _ hmem
  obtain ⟨q, c, hfinds, hinfo, hqdisc, hnumbered⟩ := hknown.finds hcl
  have hq := hfinds.qdisc
  rw [hparent] at hq hqdisc
  obtain ⟨hbits, hshift, harranged⟩ := ht.arranged q hq
  obtain ⟨harranged', hle⟩ := arranged_members harranged _ hmem
  have hused := hknown.gathered.tallied.known hq
  have hgred : info.gred = true → GredClasses classes ∧ q.shift = 0 ∧
      q.bits = 4 ∧ c.number = cl.number := by
    intro hgred
    have hclasses := ht.checked.1 hgred
    refine ⟨hclasses, ?_, ?_, ?_⟩
    · rw [hshift, pathBitsIn_leaf hclasses.leaf]
    · rw [hbits, reservedBits, if_pos hgred]
    · rw [hnumbered.gred (by rw [hqdisc, hgred]) c hfinds.mem, hinfo]
  refine ⟨hparent, ⟨hbelow, gredChecked_members ht.checked.2 _ hmem,
    harranged'⟩, q, c, hq, hfinds, hinfo, ?_, ?_, ?_, hgred, fun hplain => ?_⟩
  · rw [pathBits, if_pos hused, hshift, hbits]
  · rw [hshift]
    exact hle
  · cases hkind : info.gred with
    | true =>
        obtain ⟨hclasses, -, hfour, hnumber⟩ := hgred hkind
        rw [hfour, hnumber]
        exact hclasses.range _ hmem
    | false =>
        obtain ⟨-, hrange⟩ := hnumbered.counted (by rw [hqdisc, hkind])
        have hcount := hknown.gathered.tallied.count hq (by rw [hqdisc]) hkind
        rw [hbits, reservedBits, hkind, ← hcount]
        exact Nat.lt_of_le_of_lt (hrange c hfinds.mem).2
          (countBits_le (q.numClasses + 1) 0)
  · have hnot : q.qdisc.gred = false := by rw [hqdisc, hplain]
    exact ⟨((hnumbered.counted hnot).2 c hfinds.mem).1,
      hnumbered.different hnot⟩

theorem Known.pathValue_less {t : InnerQdisc} {path : List ClassInfo}
    (h : QdiscPath t path) (ht : Suited used qdiscs t) (hpath : path ⊆ used) :
    pathValue qdiscs path < 2 ^ pathBits used t := by
  induction h with
  | done => exact Nat.two_pow_pos _
  | step hmem hrest ih =>
      rename_i info classes cl below path
      obtain ⟨-, hbelow, q, c, -, hchosen⟩ :=
        hknown.chosen ht hmem (hpath List.mem_cons_self)
      have hless : pathValue qdiscs path < 2 ^ q.shift :=
        Nat.lt_of_lt_of_le (ih hbelow (List.subset_of_cons_subset hpath))
          (Nat.pow_le_pow_right (by omega) hchosen.below)
      rw [hchosen.finds.pathValue, hchosen.total, Nat.pow_add]
      calc 2 ^ q.shift * c.number + pathValue qdiscs path
          < 2 ^ q.shift * c.number + 2 ^ q.shift := by omega
        _ = 2 ^ q.shift * (c.number + 1) := (Nat.mul_succ _ _).symm
        _ ≤ 2 ^ q.shift * 2 ^ q.bits := Nat.mul_le_mul_left _ hchosen.less

/-- The loop over a path adds its bits to those there are. -/
theorem Known.pathNumber {t : InnerQdisc} {path : List ClassInfo}
    (h : QdiscPath t path) (ht : Suited used qdiscs t) (hpath : path ⊆ used)
    {x : Nat} (hx : 2 ^ pathBits used t ∣ x) :
    pathNumber qdiscs (.ofNat 32 x) path =
      .ok (.ofNat 32 (x + pathValue qdiscs path)) := by
  induction h generalizing x with
  | done => rfl
  | step hmem hrest ih =>
      rename_i info classes cl below path
      obtain ⟨-, hbelow, q, c, -, hchosen⟩ :=
        hknown.chosen ht hmem (hpath List.mem_cons_self)
      have hless : 2 ^ q.shift * c.number < 2 ^ (q.shift + q.bits) := by
        rw [Nat.pow_add]
        exact Nat.mul_lt_mul_of_pos_left hchosen.less (Nat.two_pow_pos _)
      rw [hchosen.total] at hx
      obtain ⟨y, rfl⟩ := hx
      have hor : BitVec.ofNat 32 (2 ^ (q.shift + q.bits) * y) |||
          BitVec.ofNat 32 (c.number <<< q.shift) =
            .ofNat 32 (2 ^ (q.shift + q.bits) * y + 2 ^ q.shift * c.number) := by
        rw [Nat.two_pow_add_eq_or_of_lt hless, BitVec.ofNat_or,
          Nat.shiftLeft_eq, Nat.mul_comm c.number]
      unfold Csp.pathNumber
      rw [hchosen.finds.found]
      change Csp.pathNumber qdiscs (_ ||| _) path = _
      rw [hor, hchosen.finds.pathValue, ih hbelow
        (List.subset_of_cons_subset hpath), Nat.add_assoc]
      rw [Nat.pow_add, Nat.mul_assoc, ← Nat.mul_add]
      exact (Nat.pow_dvd_pow 2 hchosen.below).trans (Nat.dvd_mul_right _ _)

/-- Paths with the same bits are the same up to a `gred` class at the end that
sets none. -/
theorem Known.pathValue_apart {t : InnerQdisc} {path path' : List ClassInfo}
    (h : QdiscPath t path) (h' : QdiscPath t path') (ht : Suited used qdiscs t)
    (hnodup : (t.classInfos.map ClassInfo.address).Nodup)
    (hpath : path ⊆ used) (hpath' : path' ⊆ used)
    (heq : pathValue qdiscs path = pathValue qdiscs path') :
    path = path' ∨ ∃ g, g.parent.gred = true ∧ g.number = 0 ∧
      (path' = path ++ [g] ∨ path = path' ++ [g]) := by
  -- a class that sets no bits is the last one
  have hend {info : QdiscInfo} {classes : InnerClasses} {cl : ClassInfo}
      {below : InnerQdisc} {path : List ClassInfo}
      (ht : Suited used qdiscs (.qdisc info classes))
      (hmem : (cl, below) ∈ classes.members) (hrest : QdiscPath below path)
      (hcl : cl ∈ used) (hzero : pathValue qdiscs (cl :: path) = 0) :
      cl.parent.gred = true ∧ cl.number = 0 ∧ path = [] := by
    obtain ⟨hparent, -, q, c, -, hchosen⟩ := hknown.chosen ht hmem hcl
    rw [hchosen.finds.pathValue, Nat.add_eq_zero_iff, Nat.mul_eq_zero] at hzero
    have hnumber : c.number = 0 :=
      hzero.1.resolve_left (Nat.ne_of_gt (Nat.two_pow_pos _))
    cases hgred : info.gred with
    | true =>
        obtain ⟨hclasses, -, -, hsame⟩ := hchosen.gred hgred
        have hleaf : below = .null := hclasses.leaf _ hmem
        subst hleaf
        refine ⟨by rw [hparent, hgred], by rw [← hsame, hnumber], ?_⟩
        cases hrest
        rfl
    | false =>
        have := (hchosen.plain hgred).1
        omega
  induction h generalizing path' with
  | done =>
      cases h' with
      | done => exact .inl rfl
      | step hmem hrest =>
          obtain ⟨hgred, hnumber, rfl⟩ := hend ht hmem hrest
            (hpath' List.mem_cons_self) heq.symm
          exact .inr ⟨_, hgred, hnumber, .inl rfl⟩
  | step hmem hrest ih =>
      rename_i info classes cl below path
      cases h' with
      | done =>
          obtain ⟨hgred, hnumber, rfl⟩ := hend ht hmem hrest
            (hpath List.mem_cons_self) heq
          exact .inr ⟨_, hgred, hnumber, .inr rfl⟩
      | step hmem' hrest' =>
          rename_i cl' below' path'
          obtain ⟨-, hbelow, q, c, hq, hchosen⟩ :=
            hknown.chosen ht hmem (hpath List.mem_cons_self)
          obtain ⟨-, hbelow', q', c', hq', hchosen'⟩ :=
            hknown.chosen ht hmem' (hpath' List.mem_cons_self)
          cases Option.some.inj (hq.symm.trans hq')
          have hless := Nat.lt_of_lt_of_le (hknown.pathValue_less hrest hbelow
            (List.subset_of_cons_subset hpath))
            (Nat.pow_le_pow_right (by decide : 0 < 2) hchosen.below)
          have hless' := Nat.lt_of_lt_of_le (hknown.pathValue_less hrest' hbelow'
            (List.subset_of_cons_subset hpath'))
            (Nat.pow_le_pow_right (by decide : 0 < 2) hchosen'.below)
          rw [hchosen.finds.pathValue, hchosen'.finds.pathValue] at heq
          -- the numbers agree above the shift, the rest below it
          have hnumber : c.number = c'.number := by
            have hdiv := congrArg (· / 2 ^ q.shift) heq
            simpa only [Nat.mul_add_div (Nat.two_pow_pos _),
              Nat.div_eq_of_lt hless, Nat.div_eq_of_lt hless',
              Nat.add_zero] using hdiv
          have hvalue : pathValue qdiscs path = pathValue qdiscs path' := by
            rw [hnumber] at heq
            omega
          have haddress : cl.address = cl'.address := by
            cases hgred : info.gred with
            | true =>
                obtain ⟨hclasses, -, -, hsame⟩ := hchosen.gred hgred
                obtain ⟨-, -, -, hsame'⟩ := hchosen'.gred hgred
                have hmember := List.inj_on_of_nodup_map hclasses.different
                  hmem hmem' (by rw [← hsame, ← hsame', hnumber])
                rw [(Prod.mk.inj hmember).1]
            | false =>
                have hclass := List.inj_on_of_nodup_map
                  (hchosen.plain hgred).2 hchosen.finds.mem hchosen'.finds.mem
                  hnumber
                rw [← hchosen.finds.address, ← hchosen'.finds.address, hclass]
          obtain ⟨hsub, -⟩ := members_sublist hmem
          obtain ⟨rfl, rfl⟩ := members_inj hnodup hmem hmem' haddress
          have hdeeper := ih hrest' hbelow
            (hnodup.sublist (((List.sublist_cons_self _ _).trans hsub).map _))
            (List.subset_of_cons_subset hpath)
            (List.subset_of_cons_subset hpath') hvalue
          rcases hdeeper with rfl | ⟨g, hgred, hzero, hends⟩
          · exact .inl rfl
          · exact .inr ⟨g, hgred, hzero, hends.imp
              (congrArg (cl :: ·)) (congrArg (cl :: ·))⟩

/-- A `gred` class with number 0 sets no bits. -/
theorem Known.pathValue_concat {path : List ClassInfo} {g : ClassInfo}
    (hg : g ∈ used) (hgred : g.parent.gred = true) (hzero : g.number = 0) :
    pathValue qdiscs (path ++ [g]) = pathValue qdiscs path := by
  induction path with
  | nil =>
      obtain ⟨q, c, hfinds, hinfo, hqdisc, hnumbered⟩ := hknown.finds hg
      have hnumber := hnumbered.gred (by rw [hqdisc, hgred]) c hfinds.mem
      rw [hinfo, hzero] at hnumber
      rw [List.nil_append, hfinds.pathValue, hnumber]
      rfl
  | cons cl path ih =>
      rw [List.cons_append, pathValue, pathValue, ih]

/-- The low bits belong to the `gred` qdisc at the end of a path. -/
theorem Known.pathValue_gred {t : InnerQdisc} {path : List ClassInfo}
    (h : QdiscPath t path) (ht : Suited used qdiscs t) (hpath : path ⊆ used)
    {g : ClassInfo} (hg : path.getLast? = some g) (hgred : g.parent.gred = true) :
    4 ≤ pathBits used t ∧ pathValue qdiscs path % 16 = g.number := by
  induction h with
  | done => cases hg
  | step hmem hrest ih =>
      rename_i info classes cl below path
      obtain ⟨hparent, hbelow, q, c, -, hchosen⟩ :=
        hknown.chosen ht hmem (hpath List.mem_cons_self)
      rw [hchosen.total, hchosen.finds.pathValue]
      cases path with
      | nil =>
          have hsame : cl = g := Option.some.inj hg
          subst hsame
          rw [hparent] at hgred
          obtain ⟨hclasses, hshift, hbits, hnumber⟩ := hchosen.gred hgred
          have hlt := hclasses.range _ hmem
          rw [hshift, hbits, hnumber, pathValue]
          dsimp only at hlt
          omega
      | cons next path =>
          rw [List.getLast?_cons_cons] at hg
          obtain ⟨hfour, hvalue⟩ :=
            ih hbelow (List.subset_of_cons_subset hpath) hg
          have hdvd : 16 ∣ 2 ^ q.shift :=
            Nat.pow_dvd_pow 2 (hfour.trans hchosen.below)
          have hle := hchosen.below
          obtain ⟨k, hk⟩ := hdvd
          refine ⟨by omega, ?_⟩
          rw [hk, Nat.mul_assoc, Nat.mul_add_mod, hvalue]

end

/-! ## Running -/

theorem Gathered.foldl {used : List ClassInfo} {qdiscs : List SelQdisc}
    (h : Gathered used qdiscs) (path : List ClassInfo)
    (hused : Distinguished (path.reverse ++ used)) :
    Gathered (path.reverse ++ used) (path.foldl registerSelClass qdiscs) := by
  induction path generalizing used qdiscs with
  | nil => exact h
  | cons cl path ih =>
      rw [List.reverse_cons, List.append_assoc] at hused ⊢
      have hfirst : Distinguished (cl :: used) :=
        ⟨fun x hx y hy => hused.parents x (List.mem_append_right _ hx) y
            (List.mem_append_right _ hy),
          fun x hx y hy => hused.classes x (List.mem_append_right _ hx) y
            (List.mem_append_right _ hy)⟩
      exact ih (h.register hfirst) hused

section

variable (inner : InnerTree)

/-- Classes of the tree. -/
theorem distinguished_of_tree {used : List ClassInfo}
    (h : ∀ cl ∈ used, cl ∈ inner.qdisc.classInfos ∧
      cl.parent ∈ inner.qdisc.qdiscs) : Distinguished used where
  parents cl hcl cl' hcl' heq :=
    List.inj_on_of_nodup_map inner.qdiscs (h cl hcl).2 (h cl' hcl').2 heq
  classes cl hcl cl' hcl' heq :=
    List.inj_on_of_nodup_map inner.classes (h cl hcl).1 (h cl' hcl').1 heq

variable {inner}

theorem QdiscPath.inTree {path : List ClassInfo}
    (h : QdiscPath inner.qdisc path) : ∀ cl ∈ path,
      cl ∈ inner.qdisc.classInfos ∧ cl.parent ∈ inner.qdisc.qdiscs :=
  fun cl hcl => ⟨h.sublist.subset hcl, h.parents inner.owned cl hcl⟩

/-- The classes on all paths. -/
def usedBy (paths : List SelPath) : List ClassInfo :=
  paths.flatMap SelPath.path

/-- What is known before numbers are assigned. -/
structure Selected (inner : InnerTree) (selecting : List OuterClass)
    (s : State) : Prop where
  gathered : Gathered (usedBy s.paths) s.qdiscs
  indexed : Indexed s.paths
  equals : ∀ p ∈ s.paths,
    p.equals = s.paths.countP fun walk => samePath walk.path p.path
  refs : s.refs = selecting.map OuterClass.address
  resolved : List.Forall₂ (fun cl p => ∃ list, cl.selPath = some list ∧
    Resolves inner.qdisc (pathClasses list) p.path) selecting s.paths

variable {selecting : List OuterClass} {s : State}

theorem Selected.isPath (h : Selected inner selecting s) :
    ∀ p ∈ s.paths, QdiscPath inner.qdisc p.path := by
  intro p hp
  obtain ⟨i, hi, rfl⟩ := List.getElem_of_mem hp
  obtain ⟨list, -, hpath⟩ := (List.forall₂_iff_get.mp h.resolved).2 i
    (by rw [h.resolved.length_eq]; exact hi) hi
  exact hpath.isPath

theorem Selected.distinguished (h : Selected inner selecting s) :
    Distinguished (usedBy s.paths) := by
  apply distinguished_of_tree inner
  intro cl hcl
  obtain ⟨p, hp, hcl⟩ := List.mem_flatMap.mp hcl
  exact (h.isPath p hp).inTree cl hcl

theorem samePath_iff {a b : List ClassInfo} (ha : QdiscPath inner.qdisc a)
    (hb : QdiscPath inner.qdisc b) : samePath a b = true ↔ a = b := by
  rw [samePath, beq_iff_eq]
  constructor
  · intro h
    have hinj : ∀ x ∈ a, ∀ y ∈ b, x.address = y.address → x = y :=
      fun x hx y hy => List.inj_on_of_nodup_map inner.classes
        (ha.inTree x hx).1 (hb.inTree y hy).1
    clear ha hb
    induction a generalizing b with
    | nil => exact (List.map_eq_nil_iff.mp h.symm).symm
    | cons x a ih =>
        cases b with
        | nil => cases h
        | cons y b =>
            rw [List.map_cons, List.map_cons, List.cons.injEq] at h
            rw [hinj x List.mem_cons_self y List.mem_cons_self h.1,
              ih h.2 fun x hx y hy => hinj x (List.mem_cons_of_mem _ hx) y
                (List.mem_cons_of_mem _ hy)]
  · intro h
    rw [h]

theorem path_addSelPath (path : List ClassInfo) (paths : List SelPath) :
    (addSelPath path paths).map SelPath.path = path :: paths.map SelPath.path := by
  rw [addSelPath, List.map_cons, List.map_map]
  congr 1
  apply List.map_congr_left
  intro p _
  rw [Function.comp_apply]
  split <;> rfl

/-- A new path counts for those that are the same. -/
theorem equals_addSelPath {paths : List SelPath}
    (h : ∀ p ∈ paths,
      p.equals = paths.countP fun walk => samePath walk.path p.path)
    (path : List ClassInfo) :
    ∀ p ∈ addSelPath path paths, p.equals =
      (addSelPath path paths).countP fun walk => samePath walk.path p.path := by
  have hcount (p : List ClassInfo) :
      (addSelPath path paths).countP (fun walk => samePath walk.path p) =
        paths.countP (fun walk => samePath walk.path p) +
          if samePath path p then 1 else 0 := by
    rw [addSelPath, List.countP_cons, List.countP_map]
    congr 1
    apply List.countP_congr
    intro walk _
    rw [Function.comp_apply]
    split <;> rfl
  intro p hp
  rw [hcount]
  rcases List.mem_cons.mp hp with rfl | hp
  · have hself : samePath path path = true := beq_self_eq_true _
    dsimp only
    rw [if_pos hself]
  · obtain ⟨walk, hwalk, rfl⟩ := List.mem_map.mp hp
    have hsymm : samePath path walk.path = samePath walk.path path :=
      BEq.comm
    split
    case isTrue hsame =>
      dsimp only
      rw [hsymm, if_pos hsame, h walk hwalk]
    case isFalse hother => rw [hsymm, if_neg hother, h walk hwalk, Nat.add_zero]

theorem Selected.add (h : Selected inner selecting s) {cl : OuterClass}
    {list : List PathRef} (hlist : cl.selPath = some list)
    {path : List ClassInfo}
    (hpath : Resolves inner.qdisc (pathClasses list) path) :
    Selected inner (cl :: selecting)
      { s.withPath path with refs := cl.address :: s.refs } := by
  have hused : usedBy (addSelPath path s.paths) = path ++ usedBy s.paths := by
    have hmap := congrArg List.flatten (path_addSelPath path s.paths)
    simpa [usedBy, List.flatMap] using hmap
  constructor
  case gathered =>
    have hall : Distinguished (path.reverse.reverse ++ usedBy s.paths) := by
      rw [List.reverse_reverse]
      apply distinguished_of_tree inner
      intro cl' hcl'
      rcases List.mem_append.mp hcl' with hcl' | hcl'
      · exact hpath.isPath.inTree cl' hcl'
      · obtain ⟨p, hp, hcl'⟩ := List.mem_flatMap.mp hcl'
        exact (h.isPath p hp).inTree cl' hcl'
    have hfold := h.gathered.foldl path.reverse hall
    rw [List.reverse_reverse] at hfold
    change Gathered (usedBy (addSelPath path s.paths)) _
    rw [hused]
    exact hfold
  case indexed => exact h.indexed.add path
  case equals => exact equals_addSelPath h.equals path
  case refs => rw [List.map_cons, ← h.refs]
  case resolved =>
    refine .cons ⟨list, hlist, hpath⟩ ?_
    rw [List.forall₂_map_right_iff]
    apply h.resolved.imp
    rintro cl' p ⟨list', hlist', hpath'⟩
    refine ⟨list', hlist', ?_⟩
    split <;> exact hpath'

theorem registerClasses_selects (classes : List OuterClass)
    (h : Selected inner selecting s) :
    wp (registerClasses inner.qdisc classes)
      (fun _ t => Selected inner
        ((classes.filter (·.selPath.isSome)).reverse ++ selecting) t)
      (fun _ _ => True) s := by
  induction classes generalizing selecting s with
  | nil => exact h
  | cons cl classes ih =>
      unfold registerClasses
      cases hlist : cl.selPath with
      | none =>
          apply wp_mono (ih h) _ (fun _ _ h => h)
          intro _ t ht
          simpa [hlist] using ht
      | some list =>
          dsimp only
          rw [wp_bind, wp_get, wp_ite]
          refine ⟨fun _ => trivial, fun _ => ?_⟩
          rw [wp_bind]
          apply wp_mono (registerSelectionPath_resolves inner _ _ s) _
            (fun _ _ h => h)
          rintro _ t ⟨path, hpath, -, rfl⟩
          apply wp_mono (ih (h.add hlist hpath)) _ (fun _ _ h => h)
          intro _ u hu
          simpa [hlist] using hu

/-! ## Both ways -/

/-- How many selecting classes share a path. -/
def mostEqual (paths : List (List ClassInfo)) : Nat :=
  (paths.map paths.count).foldl max 0

/-- There are enough bits for numbers that follow the tree. -/
def NumbersFit (inner : InnerQdisc) (paths : List (List ClassInfo)) : Prop :=
  countBits (mostEqual paths) 0 + pathBits paths.flatten inner ≤ cspIndexBits

instance (inner : InnerQdisc) (paths : List (List ClassInfo)) :
    Decidable (NumbersFit inner paths) :=
  inferInstanceAs (Decidable (_ ≤ _))

theorem Selected.mostEqual (h : Selected inner selecting s) :
    s.paths.foldl (fun max path =>
        if path.equals > max then path.equals else max) 0 =
      mostEqual (s.paths.map SelPath.path) := by
  have hequals : s.paths.map SelPath.equals =
      (s.paths.map SelPath.path).map
        (s.paths.map SelPath.path).count := by
    rw [List.map_map]
    apply List.map_congr_left
    intro p hp
    rw [h.equals p hp, Function.comp_apply, List.count, List.countP_map]
    apply List.countP_congr
    intro walk hwalk
    rw [Function.comp_apply, beq_iff_eq]
    exact samePath_iff (h.isPath walk hwalk) (h.isPath p hp)
  rw [Csp.mostEqual, ← hequals, List.foldl_map]
  congr 1
  funext m p
  split <;> omega

/-- Filters do not change numbers. -/
theorem selAddHierFilters_filtered (qdiscs : List SelQdisc) (s : State) :
    wp (selAddHierFilters qdiscs) (fun _ t => Filtered s t) (fun _ _ => True)
      s := by
  induction qdiscs generalizing s with
  | nil => exact .refl s
  | cons q qdiscs ih =>
      unfold selAddHierFilters
      rw [wp_ite]
      refine ⟨fun _ => ih s, fun _ => ?_⟩
      unfold selAddTcindex
      rw [wp_bind, wp_modify, wp_bind, wp_modify]
      exact wp_mono (ih _) (fun _ _ ht => ((Filtered.setFilters s _ _).trans
        (.setFilters _ _ _)).trans ht) (fun _ _ h => h)

theorem addSeqTcindex_filtered (qdiscs : List SelQdisc) (s : State) :
    wp (addSeqTcindex qdiscs) (fun _ t => Filtered s t) (fun _ _ => True)
      s := by
  induction qdiscs generalizing s with
  | nil => exact .refl s
  | cons q qdiscs ih =>
      unfold addSeqTcindex
      rw [wp_ite]
      refine ⟨fun _ => ih s, fun _ => ?_⟩
      unfold selAddTcindex
      rw [wp_bind, wp_modify]
      exact wp_mono (ih _) (fun _ _ ht => (Filtered.setFilters s _ _).trans ht)
        (fun _ _ h => h)

theorem addSeqElements_filtered (n : Nat) (path : List ClassInfo) (s : State) :
    wp (addSeqElements n path) (fun _ t => Filtered s t) (fun _ _ => True)
      s := by
  induction path generalizing s with
  | nil => exact .refl s
  | cons elem path ih =>
      unfold addSeqElements
      rw [wp_bind, wp_get, wp_ite]
      refine ⟨fun _ => ih s, fun _ => ?_⟩
      rw [wp_bind, wp_lift]
      refine ⟨fun found _ => ?_, fun _ _ => trivial⟩
      obtain ⟨q, cl⟩ := found
      dsimp only
      cases s.filters q.qdisc.address with
      | nil => exact trivial
      | cons f filters =>
          dsimp only
          rw [wp_bind, wp_modify]
          exact wp_mono (ih _)
            (fun _ _ ht => (Filtered.setFilters s _ _).trans ht)
            (fun _ _ h => h)

theorem addSeqPaths_filtered (n : Nat) (paths : List SelPath) (s : State) :
    wp (addSeqPaths n paths) (fun _ t => Filtered s t) (fun _ _ => True)
      s := by
  induction paths generalizing n s with
  | nil => exact .refl s
  | cons p paths ih =>
      unfold addSeqPaths
      rw [wp_bind]
      apply wp_mono (addSeqElements_filtered _ _ s) _ (fun _ _ h => h)
      intro _ t ht
      exact wp_mono (ih (n + 1) t) (fun _ _ hu => ht.trans hu) (fun _ _ h => h)

/-- The numbers of selecting classes, which are either put together from what
the path sets or counted. -/
structure Assigned (inner : InnerTree) (selecting : List OuterClass)
    (paths : List SelPath) (codes : List Nat) (t : State) : Prop where
  numbers : List.Forall₂ (fun ref code => t.numbers ref = .ofNat 32 code)
    (selecting.map OuterClass.address) codes
  less : ∀ code ∈ codes, code < 2 ^ 15
  together : NumbersFit inner.qdisc (paths.map SelPath.path) →
    ∃ qdiscs, Known (usedBy paths) qdiscs ∧
      Suited (usedBy paths) qdiscs inner.qdisc ∧
        codes = paths.map
          (pathCode qdiscs (pathBits (usedBy paths) inner.qdisc))
  counted : ¬NumbersFit inner.qdisc (paths.map SelPath.path) →
    codes = List.range' 1 selecting.length

theorem Gathered.core {used : List ClassInfo} {qdiscs qdiscs' : List SelQdisc}
    (h : Gathered used qdiscs)
    (hcore : qdiscs'.map SelQdisc.core = qdiscs.map SelQdisc.core) :
    Gathered used qdiscs' := by
  have hold {a : Nat} {q : SelQdisc} (hq : findQdisc qdiscs' a = some q) :
      ∃ q', findQdisc qdiscs a = some q' ∧ q.qdisc = q'.qdisc ∧
        q.classes = q'.classes ∧ q.numClasses = q'.numClasses := by
    obtain ⟨q', hq', heq⟩ := findQdisc_core_some hcore hq
    exact ⟨q', hq', congrArg Prod.fst heq, congrArg (·.2.1) heq,
      congrArg (·.2.2) heq⟩
  constructor
  case found => exact fun cl hcl => (h.found cl hcl).core hcore
  case numbered =>
    intro a q hq
    obtain ⟨q', hq', hqdisc, hclasses, hnum⟩ := hold hq
    have hnumbered := h.numbered hq'
    constructor
    · rw [hclasses]
      exact hnumbered.addresses
    · rw [hclasses, hqdisc]
      exact hnumbered.parents
    · rw [hclasses, hqdisc]
      exact hnumbered.gred
    · rw [hclasses, hqdisc]
      exact hnumbered.different
    · rw [hclasses, hqdisc, hnum]
      exact hnumbered.counted
  case used =>
    intro a q hq
    obtain ⟨q', hq', -, hclasses, -⟩ := hold hq
    rw [hclasses]
    exact h.used hq'

theorem Selected.agrees (h : Selected inner selecting s) :
    Agrees s.qdiscs inner.qdisc.qdiscs := by
  intro info hinfo q hq
  obtain ⟨hne, hmem⟩ := h.gathered.used hq
  obtain ⟨c, hc⟩ := List.exists_mem_of_ne_nil _ hne
  obtain ⟨p, hp, hcl⟩ := List.mem_flatMap.mp (hmem c hc)
  have hparent := ((h.isPath p hp).inTree _ hcl).2
  rw [(h.gathered.numbered hq).parents c hc] at hparent
  rw [List.inj_on_of_nodup_map inner.qdiscs hinfo hparent
    (findQdisc_some hq).2.symm]

/-- Different numbers below a power of two fit above the bits of a path. -/
theorem pathCode_less {qdiscs : List SelQdisc} {p : SelPath} {bits top : Nat}
    (hvalue : pathValue qdiscs p.path < 2 ^ bits) (hindex : p.index < 2 ^ top)
    (hbits : top + bits ≤ 15) : pathCode qdiscs bits p < 2 ^ 15 := by
  calc pathCode qdiscs bits p
      < 2 ^ bits * p.index + 2 ^ bits := Nat.add_lt_add_left hvalue _
    _ = 2 ^ bits * (p.index + 1) := (Nat.mul_succ _ _).symm
    _ ≤ 2 ^ bits * 2 ^ top := Nat.mul_le_mul_left _ hindex
    _ = 2 ^ (top + bits) := by rw [Nat.pow_add, Nat.mul_comm]
    _ ≤ 2 ^ 15 := Nat.pow_le_pow_right (by decide) hbits

theorem endSelectionPaths_assigns (hchecked : GredChecked inner.qdisc)
    (hselecting : (selecting.map OuterClass.address).Nodup)
    (h : Selected inner selecting s) :
    wp (endSelectionPaths inner.qdisc)
      (fun _ t => ∃ codes, Assigned inner selecting s.paths codes t)
      (fun _ _ => True) s := by
  have hlength := h.resolved.length_eq
  have hrefs : s.refs.Nodup := by
    rw [h.refs]
    exact hselecting
  have hflat : (s.paths.map SelPath.path).flatten = usedBy s.paths := rfl
  unfold endSelectionPaths
  rw [wp_bind, wp_get, wp_ite]
  refine ⟨fun hnil => ?_, fun _ => ?_⟩
  · have hselecting : selecting = [] := by
      rw [hnil] at hlength
      exact List.length_eq_zero_iff.mp hlength
    have harranged : Arranged [] [] inner.qdisc := by
      cases inner.qdisc with
      | null => trivial
      | qdisc info classes => exact fun q hq => by cases hq
    refine ⟨[], ?_, fun _ h => absurd h List.not_mem_nil, fun _ => ?_,
      fun _ => ?_⟩
    · rw [hselecting]
      exact .nil
    · rw [hnil]
      exact ⟨[], ⟨gathered_nil, ⟨fun _ h => absurd h List.not_mem_nil,
        fun _ h => absurd h List.not_mem_nil⟩⟩,
        ⟨inner.owned, hchecked, harranged⟩, rfl⟩
    · rw [hselecting]
      rfl
  · have hcomputed := selectionBits_arranges s.qdiscs inner.qdisc
      h.gathered.tallied h.agrees inner.qdiscs
    dsimp only
    generalize selectionBits s.qdiscs inner.qdisc = result at *
    obtain ⟨qdiscs, bits⟩ := result
    obtain rfl : bits = _ := hcomputed.bits
    have hknown : Known (usedBy s.paths) qdiscs :=
      ⟨h.gathered.core hcomputed.resized.core, h.distinguished⟩
    have hsuited : Suited (usedBy s.paths) qdiscs inner.qdisc :=
      ⟨inner.owned, hchecked, hcomputed.laid⟩
    have hsub : ∀ p ∈ s.paths, p.path ⊆ usedBy s.paths := fun p hp cl hcl =>
      List.mem_flatMap.mpr ⟨p, hp, hcl⟩
    have hvalue : ∀ p ∈ s.paths, pathValue qdiscs p.path <
        2 ^ pathBits (usedBy s.paths) inner.qdisc := fun p hp =>
      hknown.pathValue_less (h.isPath p hp) hsuited (hsub p hp)
    dsimp only
    rw [wp_bind, wp_modify, wp_ite, h.mostEqual]
    refine ⟨fun hbits => ?_, fun hbits => ?_⟩
    · rw [wp_bind]
      apply wp_mono (selAddHierFilters_filtered qdiscs _) _ (fun _ _ h => h)
      intro _ t ht
      apply wp_mono (selSetClassNumbers_codes hrefs
        (pathCode qdiscs (pathBits (usedBy s.paths) inner.qdisc)) _
        (by rw [h.refs, List.length_map, hlength])) _ (fun _ _ h => h)
      · intro p hp
        rw [ht.qdiscs, Nat.shiftLeft_eq, Nat.mul_comm]
        exact hknown.pathNumber (h.isPath p hp) hsuited (hsub p hp)
          (Nat.dvd_mul_right _ _)
      · intro _ u hu
        refine ⟨_, h.refs ▸ hu.numbers, fun code hcode => ?_,
          fun _ => ⟨qdiscs, hknown, hsuited, rfl⟩, fun hnot => ?_⟩
        · obtain ⟨p, hp, rfl⟩ := List.mem_map.mp hcode
          apply pathCode_less (hvalue p hp) _ hbits
          have hequals := (equals_le_max s.paths 0).2 p hp
          rw [h.mostEqual] at hequals
          exact Nat.lt_of_lt_of_le (h.indexed.index_lt_equals p hp)
            (hequals.trans (countBits_le _ _))
        · exact absurd hbits hnot
    · rw [wp_bind]
      apply wp_mono (setNumberRefs_codes 0 hrefs _) _ (fun _ _ h => h)
      rintro _ t ⟨hless, ht⟩
      unfold selAddSeqFilters
      rw [wp_bind, wp_get, wp_bind]
      apply wp_mono (addSeqTcindex_filtered _ t) _ (fun _ _ h => h)
      intro _ u hu
      apply wp_mono (addSeqPaths_filtered 0 _ u) _ (fun _ _ h => h)
      intro _ v hv
      have hnumbers := ht.numbers
      rw [← hu.numbers, ← hv.numbers, h.refs] at hnumbers
      refine ⟨_, hnumbers, fun code hcode => ?_, fun hfit => ?_, fun _ => ?_⟩
      · rw [List.mem_range'_1] at hcode
        rw [h.refs, Nat.zero_add] at hless
        omega
      · exact absurd hfit hbits
      · rw [List.length_map]

end

/-! ## When numbers are right -/

/-- The classes that select a path, from the last one to the first. -/
def selectors (classes : List OuterClass) : List OuterClass :=
  (classes.filter (·.selPath.isSome)).reverse

/-- Different paths have different numbers, and `gred` finds its class in the
low bits. -/
structure SelectsRight (path : Class → List ClassInfo)
    (selecting : List OuterClass) (numbers : Class → BitVec 32) : Prop where
  different : ∀ cl ∈ selecting, ∀ cl' ∈ selecting,
    path cl.address ≠ path cl'.address →
      numbers cl.address ≠ numbers cl'.address
  gred : ∀ cl ∈ selecting, ∀ g, (path cl.address).getLast? = some g →
    g.parent.gred = true → (numbers cl.address).toNat % 16 = g.number

/-- If there are enough bits, no path goes on with class 0 of a `gred` qdisc
where another one ends. Otherwise, counting the paths agrees with the numbers
of the `gred` classes. -/
def GredSound (inner : InnerQdisc) (paths : List (List ClassInfo)) : Prop :=
  if NumbersFit inner paths then
    ∀ p ∈ paths, ∀ g, g.parent.gred = true → g.number = 0 → p ++ [g] ∉ paths
  else ∀ i g, paths[i]?.bind List.getLast? = some g → g.parent.gred = true →
    (i + 1) % 16 = g.number

section

variable {inner : InnerTree} {selecting : List OuterClass}
  {paths : List SelPath} {codes : List Nat} {t : State}
  {path : Class → List ClassInfo}

/-- One of the equal paths has no index. -/
theorem Indexed.exists_zero (h : Indexed paths) {p : SelPath} (hp : p ∈ paths) :
    ∃ p' ∈ paths, samePath p'.path p.path = true ∧ p'.index = 0 := by
  induction paths generalizing p with
  | nil => cases hp
  | cons first paths ih =>
      obtain ⟨hindex, -, hrest⟩ := h
      have hlater : (∃ q ∈ paths, samePath q.path p.path = true) →
          ∃ p' ∈ first :: paths,
            samePath p'.path p.path = true ∧ p'.index = 0 := by
        rintro ⟨q, hq, hsame⟩
        obtain ⟨p', hp', hsame', hzero⟩ := ih hrest hq
        refine ⟨p', List.mem_cons_of_mem _ hp', ?_, hzero⟩
        rw [samePath, beq_iff_eq] at hsame hsame' ⊢
        rw [hsame', hsame]
      rcases List.mem_cons.mp hp with rfl | hp
      · by_cases hsome : ∃ q ∈ paths, samePath q.path p.path = true
        · exact hlater hsome
        · refine ⟨p, List.mem_cons_self, beq_self_eq_true _, ?_⟩
          rw [hindex, List.countP_eq_zero]
          exact fun q hq hsame => hsome ⟨q, hq, hsame⟩
      · exact hlater ⟨p, hp, beq_self_eq_true _⟩

/-- What is known about one of the classes. -/
structure Row (selecting : List OuterClass) (paths : List SelPath)
    (codes : List Nat) (t : State) (path : Class → List ClassInfo) (i : Nat)
    (cl : OuterClass) (p : SelPath) (code : Nat) : Prop where
  selector : selecting[i]? = some cl
  registered : paths[i]? = some p
  assigned : codes[i]? = some code
  number : t.numbers cl.address = .ofNat 32 code
  same : p.path = path cl.address

variable (h : Assigned inner selecting paths codes t)
  (hpaths : List.Forall₂ (fun cl p => p.path = path cl.address) selecting paths)

include h hpaths

theorem Assigned.row {i : Nat} (hi : i < selecting.length) :
    ∃ cl p code, Row selecting paths codes t path i cl p code := by
  obtain ⟨hlength, hpath⟩ := List.forall₂_iff_get.mp hpaths
  obtain ⟨hlength', hnumbers⟩ := List.forall₂_iff_get.mp h.numbers
  rw [List.length_map] at hlength'
  have hnumber := hnumbers i (by rw [List.length_map]; exact hi) (by omega)
  refine ⟨selecting[i], paths[i], codes[i], List.getElem?_eq_getElem hi,
    List.getElem?_eq_getElem _, List.getElem?_eq_getElem _, ?_,
    hpath i hi (by omega)⟩
  simpa using hnumber

theorem Assigned.row_of_mem {cl : OuterClass} (hcl : cl ∈ selecting) :
    ∃ i p code, Row selecting paths codes t path i cl p code := by
  obtain ⟨i, hi, rfl⟩ := List.getElem_of_mem hcl
  obtain ⟨cl, p, code, hrow⟩ := h.row hpaths hi
  have hsame := hrow.selector
  rw [List.getElem?_eq_getElem hi] at hsame
  obtain rfl := Option.some.inj hsame
  exact ⟨i, p, code, hrow⟩

theorem Assigned.row_of_path {p : SelPath} (hp : p ∈ paths) :
    ∃ i cl code, Row selecting paths codes t path i cl p code := by
  obtain ⟨i, hi, rfl⟩ := List.getElem_of_mem hp
  obtain ⟨cl, p, code, hrow⟩ := h.row hpaths
    (by rw [hpaths.length_eq]; exact hi)
  have hsame := hrow.registered
  rw [List.getElem?_eq_getElem hi] at hsame
  obtain rfl := Option.some.inj hsame
  exact ⟨i, cl, code, hrow⟩

theorem Assigned.map_path :
    selecting.map (fun cl => path cl.address) = paths.map SelPath.path := by
  apply List.ext_getElem?
  intro i
  rw [List.getElem?_map, List.getElem?_map]
  by_cases hi : i < selecting.length
  · obtain ⟨cl, p, code, hrow⟩ := h.row hpaths hi
    rw [hrow.selector, hrow.registered, Option.map_some, Option.map_some,
      hrow.same]
  · rw [List.getElem?_eq_none (Nat.not_lt.mp hi), List.getElem?_eq_none]
    · rfl
    · rw [← hpaths.length_eq]
      exact Nat.not_lt.mp hi

omit hpaths in
theorem Assigned.number_inj {i j : Nat} {cl cl' : OuterClass} {p p' : SelPath}
    {code code' : Nat} (hrow : Row selecting paths codes t path i cl p code)
    (hrow' : Row selecting paths codes t path j cl' p' code') :
    t.numbers cl.address = t.numbers cl'.address ↔ code = code' := by
  rw [hrow.number, hrow'.number]
  exact ofNat_inj (h.less _ (List.mem_of_getElem? hrow.assigned))
    (h.less _ (List.mem_of_getElem? hrow'.assigned))

omit hpaths in
theorem Assigned.number_mod {i : Nat} {cl : OuterClass} {p : SelPath}
    {code : Nat} (hrow : Row selecting paths codes t path i cl p code) :
    (t.numbers cl.address).toNat % 16 = code % 16 := by
  have hless := h.less _ (List.mem_of_getElem? hrow.assigned)
  rw [hrow.number, BitVec.toNat_ofNat]
  omega

/-- Numbers that follow the tree. -/
theorem Assigned.together_iff (hindexed : Indexed paths)
    (hisPath : ∀ p ∈ paths, QdiscPath inner.qdisc p.path)
    (hfit : NumbersFit inner.qdisc (paths.map SelPath.path)) :
    SelectsRight path selecting t.numbers ↔
      ∀ p ∈ paths.map SelPath.path, ∀ g, g.parent.gred = true → g.number = 0 →
        p ++ [g] ∉ paths.map SelPath.path := by
  obtain ⟨qdiscs, hknown, hsuited, rfl⟩ := h.together hfit
  have hsub : ∀ p ∈ paths, p.path ⊆ usedBy paths := fun p hp cl hcl =>
    List.mem_flatMap.mpr ⟨p, hp, hcl⟩
  have hvalue : ∀ p ∈ paths, pathValue qdiscs p.path <
      2 ^ pathBits (usedBy paths) inner.qdisc := fun p hp =>
    hknown.pathValue_less (hisPath p hp) hsuited (hsub p hp)
  have hcode {i : Nat} {cl : OuterClass} {p : SelPath} {code : Nat}
      (hrow : Row selecting paths (paths.map (pathCode qdiscs
        (pathBits (usedBy paths) inner.qdisc))) t path i cl p code) :
      p ∈ paths ∧ code =
        pathCode qdiscs (pathBits (usedBy paths) inner.qdisc) p := by
    have hassigned := hrow.assigned
    rw [List.getElem?_map, hrow.registered] at hassigned
    exact ⟨List.mem_of_getElem? hrow.registered,
      (Option.some.inj hassigned).symm⟩
  constructor
  · intro hright q hq g hgred hzero hlonger
    obtain ⟨p, hp, rfl⟩ := List.mem_map.mp hq
    obtain ⟨p', hp', hpath'⟩ := List.mem_map.mp hlonger
    have hg : g ∈ usedBy paths := by
      refine hsub p' hp' ?_
      rw [hpath']
      exact List.mem_append_right _ (List.mem_singleton_self g)
    obtain ⟨p₁, hp₁, hsame₁, hzero₁⟩ := hindexed.exists_zero hp
    obtain ⟨p₂, hp₂, hsame₂, hzero₂⟩ := hindexed.exists_zero hp'
    rw [samePath_iff (hisPath _ hp₁) (hisPath _ hp)] at hsame₁
    rw [samePath_iff (hisPath _ hp₂) (hisPath _ hp'), hpath'] at hsame₂
    obtain ⟨i, cl, code, hrow⟩ := h.row_of_path hpaths hp₁
    obtain ⟨j, cl', code', hrow'⟩ := h.row_of_path hpaths hp₂
    refine hright.different cl (List.mem_of_getElem? hrow.selector) cl'
      (List.mem_of_getElem? hrow'.selector) ?_ ((h.number_inj hrow hrow').mpr ?_)
    · rw [← hrow.same, ← hrow'.same, hsame₁, hsame₂]
      exact fun heq => List.cons_ne_nil _ _
        (List.append_right_eq_self.mp heq.symm)
    · rw [(hcode hrow).2, (hcode hrow').2, pathCode, pathCode, hzero₁, hzero₂,
        hsame₁, hsame₂, hknown.pathValue_concat hg hgred hzero]
  · intro hnone
    constructor
    · intro cl hcl cl' hcl' hne hnumber
      obtain ⟨i, p, code, hrow⟩ := h.row_of_mem hpaths hcl
      obtain ⟨j, p', code', hrow'⟩ := h.row_of_mem hpaths hcl'
      rw [h.number_inj hrow hrow', (hcode hrow).2, (hcode hrow').2, pathCode,
        pathCode] at hnumber
      have hp := (hcode hrow).1
      have hp' := (hcode hrow').1
      have hlow := congrArg
        (· % 2 ^ pathBits (usedBy paths) inner.qdisc) hnumber
      simp only [Nat.mul_add_mod, Nat.mod_eq_of_lt (hvalue p hp),
        Nat.mod_eq_of_lt (hvalue p' hp')] at hlow
      rw [← hrow.same, ← hrow'.same] at hne
      rcases hknown.pathValue_apart (hisPath p hp) (hisPath p' hp') hsuited
        inner.classes (hsub p hp) (hsub p' hp') hlow with
        heq | ⟨g, hgred, hzero, hlonger | hlonger⟩
      · exact hne heq
      · refine hnone _ (List.mem_map_of_mem hp) g hgred hzero ?_
        rw [← hlonger]
        exact List.mem_map_of_mem hp'
      · refine hnone _ (List.mem_map_of_mem hp') g hgred hzero ?_
        rw [← hlonger]
        exact List.mem_map_of_mem hp
    · intro cl hcl g hg hgred
      obtain ⟨i, p, code, hrow⟩ := h.row_of_mem hpaths hcl
      rw [← hrow.same] at hg
      have hp := (hcode hrow).1
      obtain ⟨hfour, hlow⟩ := hknown.pathValue_gred (hisPath p hp) hsuited
        (hsub p hp) hg hgred
      obtain ⟨k, hk⟩ : 16 ∣ 2 ^ pathBits (usedBy paths) inner.qdisc :=
        Nat.pow_dvd_pow 2 hfour
      rw [h.number_mod hrow, (hcode hrow).2, pathCode, hk, Nat.mul_assoc,
        Nat.mul_add_mod, hlow]

/-- Numbers that are simply counted. -/
theorem Assigned.counted_iff
    (hfit : ¬NumbersFit inner.qdisc (paths.map SelPath.path)) :
    SelectsRight path selecting t.numbers ↔
      ∀ i g, (paths.map SelPath.path)[i]?.bind List.getLast? = some g →
        g.parent.gred = true → (i + 1) % 16 = g.number := by
  have hcodes := h.counted hfit
  subst hcodes
  have hcode {i : Nat} {cl : OuterClass} {p : SelPath} {code : Nat}
      (hrow : Row selecting paths (List.range' 1 selecting.length) t path i cl p
        code) : code = i + 1 := by
    have hassigned := hrow.assigned
    rw [List.getElem?_eq_some_iff] at hassigned
    obtain ⟨hi, heq⟩ := hassigned
    rw [List.getElem_range'] at heq
    omega
  constructor
  · intro hright i g hg hgred
    rw [List.getElem?_map] at hg
    cases hp : paths[i]? with
    | none =>
        rw [hp] at hg
        cases hg
    | some p =>
        rw [hp] at hg
        have hi : i < selecting.length := by
          rw [hpaths.length_eq]
          exact (List.getElem?_eq_some_iff.mp hp).1
        obtain ⟨cl, p', code, hrow⟩ := h.row hpaths hi
        obtain rfl := Option.some.inj (hp.symm.trans hrow.registered)
        rw [← hcode hrow, ← h.number_mod hrow]
        refine hright.gred cl (List.mem_of_getElem? hrow.selector) g ?_ hgred
        rw [← hrow.same]
        exact hg
  · intro hcount
    constructor
    · intro cl hcl cl' hcl' hne hnumber
      obtain ⟨i, p, code, hrow⟩ := h.row_of_mem hpaths hcl
      obtain ⟨j, p', code', hrow'⟩ := h.row_of_mem hpaths hcl'
      rw [h.number_inj hrow hrow', hcode hrow, hcode hrow'] at hnumber
      obtain rfl := Nat.succ.inj hnumber
      obtain rfl := Option.some.inj (hrow.selector.symm.trans hrow'.selector)
      exact hne rfl
    · intro cl hcl g hg hgred
      obtain ⟨i, p, code, hrow⟩ := h.row_of_mem hpaths hcl
      rw [h.number_mod hrow, hcode hrow]
      refine hcount i g ?_ hgred
      rw [List.getElem?_map, hrow.registered, Option.map_some, hrow.same]
      exact hg

end

/-- The number of a class is right exactly when nothing is in the way of what
`gred` makes of it. -/
theorem classSelectionPaths_gred_iff (inner : InnerTree)
    (hchecked : GredChecked inner.qdisc) (classes : List OuterClass)
    (hclasses : (classes.map OuterClass.address).Nodup) {s t : State}
    (hrun : classSelectionPaths classes inner.qdisc s = (.ok (), t))
    {path : Class → List ClassInfo}
    (hpath : ∀ cl ∈ classes, ∀ list, cl.selPath = some list →
      Resolves inner.qdisc (pathClasses list) (path cl.address)) :
    SelectsRight path (selectors classes) t.numbers ↔
      GredSound inner.qdisc
        ((selectors classes).map fun cl => path cl.address) := by
  have hempty : Selected inner []
      { s with paths := [], refs := [], qdiscs := [] } :=
    ⟨gathered_nil, trivial, fun _ h => absurd h List.not_mem_nil, rfl, .nil⟩
  have hselecting : ((selectors classes).map OuterClass.address).Nodup := by
    rw [selectors, List.map_reverse, List.nodup_reverse]
    exact hclasses.sublist (List.filter_sublist.map _)
  have hwp : wp (classSelectionPaths classes inner.qdisc)
      (fun _ t => ∃ u codes, Selected inner (selectors classes) u ∧
        Assigned inner (selectors classes) u.paths codes t)
      (fun _ _ => True) s := by
    unfold classSelectionPaths
    rw [wp_bind, wp_modify, wp_bind]
    apply wp_mono (registerClasses_selects classes hempty) _ (fun _ _ h => h)
    intro _ u hu
    rw [List.append_nil] at hu
    apply wp_mono (endSelectionPaths_assigns hchecked hselecting hu) _
      (fun _ _ h => h)
    rintro _ v ⟨codes, hv⟩
    exact ⟨u, codes, hu, hv⟩
  obtain ⟨u, codes, hu, hassigned⟩ := wp_ok hrun hwp
  have hmem : ∀ cl ∈ selectors classes, cl ∈ classes := fun cl hcl =>
    List.mem_of_mem_filter (List.mem_reverse.mp hcl)
  have hpaths : List.Forall₂ (fun cl p => p.path = path cl.address)
      (selectors classes) u.paths := by
    rw [List.forall₂_iff_get]
    obtain ⟨hlength, hresolved⟩ := List.forall₂_iff_get.mp hu.resolved
    refine ⟨hlength, fun i hi hi' => ?_⟩
    obtain ⟨list, hlist, hresolves⟩ := hresolved i hi hi'
    exact hresolves.unique inner.classes
      (hpath _ (hmem _ (List.getElem_mem hi)) list hlist)
  rw [hassigned.map_path hpaths, GredSound]
  split
  case isTrue hfit =>
    exact hassigned.together_iff hpaths hu.indexed hu.isPath hfit
  case isFalse hfit => exact hassigned.counted_iff hpaths hfit

/-- A `gred` qdisc with two classes, below a class of another qdisc. -/
def gredTree : InnerTree where
  qdisc := .qdisc ⟨1, false⟩ (.class ⟨10, 1, ⟨1, false⟩⟩
    (.qdisc ⟨2, true⟩ (.class ⟨11, 0, ⟨2, true⟩⟩ .null .null
      (.class ⟨12, 1, ⟨2, true⟩⟩ .null .null .null))) .null .null)
  owned := ⟨rfl, ⟨rfl, trivial, trivial, rfl, trivial, trivial, trivial⟩,
    trivial, trivial⟩
  qdiscs := by decide
  classes := by decide

theorem gredTree_checked : GredChecked gredTree.qdisc :=
  ⟨fun h => (by cases h), ⟨fun _ => ⟨by simp [Classes.members], by decide, by decide⟩, trivial,
    trivial, trivial, trivial, trivial⟩, trivial, trivial⟩

/-- The path to a class of `gredTree`. -/
def gredPath (last : Option Class) : List ClassInfo :=
  match last with
  | none => [⟨10, 1, ⟨1, false⟩⟩]
  | some 11 => [⟨10, 1, ⟨1, false⟩⟩, ⟨11, 0, ⟨2, true⟩⟩]
  | _ => [⟨10, 1, ⟨1, false⟩⟩, ⟨12, 1, ⟨2, true⟩⟩]

theorem gredPath_resolves (last : Option Class) :
    Resolves gredTree.qdisc ((gredPath last).map ClassInfo.address)
      (gredPath last) := by
  refine ⟨?_, fun c hc => hc, fun cl hcl =>
    List.mem_map_of_mem (List.mem_of_getLast? hcl)⟩
  unfold gredPath
  split
  · exact .step List.mem_cons_self (.done _)
  · exact .step List.mem_cons_self (.step List.mem_cons_self (.done _))
  · exact .step List.mem_cons_self
      (.step (List.mem_cons_of_mem _ List.mem_cons_self) (.done _))

theorem classSelectionPaths_gred_iff_two :
    SelectsRight (fun c => gredPath (if c = 20 then some 11 else some 12))
      (selectors [⟨20, some [.toClass 10, .toClass 11]⟩,
        ⟨21, some [.toClass 10, .toClass 12]⟩])
      (classSelectionPaths [⟨20, some [.toClass 10, .toClass 11]⟩,
        ⟨21, some [.toClass 10, .toClass 12]⟩] gredTree.qdisc
          .unnumbered).2.numbers := by
  have hok : (classSelectionPaths [⟨20, some [.toClass 10, .toClass 11]⟩,
      ⟨21, some [.toClass 10, .toClass 12]⟩] gredTree.qdisc
        .unnumbered).1 = .ok () := by
    decide +kernel
  refine (classSelectionPaths_gred_iff gredTree gredTree_checked _ (by decide)
    (Prod.ext hok rfl) ?_).mpr ?_
  · intro cl hcl list hlist
    simp only [List.mem_cons, List.not_mem_nil, or_false] at hcl
    rcases hcl with rfl | rfl
    · obtain rfl := Option.some.inj hlist
      exact gredPath_resolves (some 11)
    · obtain rfl := Option.some.inj hlist
      exact gredPath_resolves (some 12)
  · rw [GredSound, if_pos (by decide +kernel)]
    intro p hp g _ _ hlonger
    have hlength : ∀ q ∈ (selectors [⟨20, some [.toClass 10, .toClass 11]⟩,
        ⟨21, some [.toClass 10, .toClass 12]⟩]).map (fun cl => gredPath
          (if cl.address = 20 then some 11 else some 12)), q.length = 2 := by
      decide
    have hmore := hlength _ hlonger
    rw [List.length_append, hlength p hp] at hmore
    cases hmore

/-- Class 0 of `gred` is not told from the class above. -/
theorem classSelectionPaths_gred_zero :
    ¬∀ (inner : InnerTree) (classes : List OuterClass) (s t : State)
      (path : Class → List ClassInfo), GredChecked inner.qdisc →
        (classes.map OuterClass.address).Nodup →
        classSelectionPaths classes inner.qdisc s = (.ok (), t) →
        (∀ cl ∈ classes, ∀ list, cl.selPath = some list →
          Resolves inner.qdisc (pathClasses list) (path cl.address)) →
        SelectsRight path (selectors classes) t.numbers := by
  intro hall
  have hok : (classSelectionPaths [⟨20, some [.toClass 10]⟩,
      ⟨21, some [.toClass 10, .toClass 11]⟩] gredTree.qdisc
        .unnumbered).1 = .ok () := by
    decide +kernel
  have hright := hall gredTree [⟨20, some [.toClass 10]⟩,
    ⟨21, some [.toClass 10, .toClass 11]⟩] .unnumbered _
    (fun c => gredPath (if c = 20 then none else some 11)) gredTree_checked
    (by decide) (Prod.ext hok rfl) (by
      intro cl hcl list hlist
      simp only [List.mem_cons, List.not_mem_nil, or_false] at hcl
      rcases hcl with rfl | rfl
      · obtain rfl := Option.some.inj hlist
        exact gredPath_resolves none
      · obtain rfl := Option.some.inj hlist
        exact gredPath_resolves (some 11))
  exact hright.different ⟨20, some [.toClass 10]⟩ (by decide)
    ⟨21, some [.toClass 10, .toClass 11]⟩ (by decide) (by decide)
    (by decide +kernel)

end Tcng.Csp
