import Tcng.Tree.SelectionNumbers

/-! Filters for class selection paths, when numbers follow the tree and when
they are simply counted. -/

namespace Tcng.Csp

open Program

/-! ## Picking elements -/

/-- `tcindex`: classes of the elements for which masking and shifting yields
their number. -/
def Filter.picks (f : Filter) (number : BitVec 32) : List Class :=
  (f.elements.filter fun e =>
    e.number == (number &&& f.mask) >>> f.shift.toNat).map Element.toClass

/-- On the whole path, the filter of the qdisc picks the class. -/
def State.Follows (s : State) (number : BitVec 32) (path : List ClassInfo) :
    Prop :=
  ∀ cl ∈ path, ∃ f, s.filters cl.parent.address = [f] ∧
    f.picks number = [cl.address]

theorem filter_eq_singleton {α β : Type} [DecidableEq β] {f : α → β}
    {xs : List α} (h : (xs.map f).Nodup) {x : α} (hx : x ∈ xs) :
    xs.filter (fun y => f y == f x) = [x] := by
  induction xs with
  | nil => cases hx
  | cons y xs ih =>
      rw [List.map_cons, List.nodup_cons] at h
      rcases List.mem_cons.mp hx with rfl | hx
      · have hrest : xs.filter (fun z => f z == f x) = [] := by
          apply List.filter_eq_nil_iff.mpr
          intro z hz heq
          apply h.1
          rw [← beq_iff_eq.mp heq]
          exact List.mem_map_of_mem hz
        rw [List.filter_cons_of_pos (by simp), hrest]
      · have hne : ¬(f y == f x) = true := by
          intro heq
          apply h.1
          rw [beq_iff_eq.mp heq]
          exact List.mem_map_of_mem hx
        rw [List.filter_cons_of_neg (by simpa using hne), ih h.2 hx]

theorem ofNat_inj {m n : Nat} (hm : m < 2 ^ 15) (hn : n < 2 ^ 15) :
    BitVec.ofNat 32 m = BitVec.ofNat 32 n ↔ m = n := by
  constructor
  · intro h
    have := congrArg BitVec.toNat h
    rw [BitVec.toNat_ofNat, BitVec.toNat_ofNat] at this
    omega
  · rintro rfl
    rfl

/-- Mask and shift of a filter leave the bits of its qdisc. -/
theorem mask_shift {n shift bits : Nat} (hn : n < 2 ^ 15)
    (hbits : shift + bits ≤ 15) :
    (BitVec.ofNat 32 n &&& .ofNat 32 ((2 ^ bits - 1) <<< shift)) >>>
        (BitVec.ofNat 32 shift).toNat =
      BitVec.ofNat 32 (n / 2 ^ shift % 2 ^ bits) := by
  have hmask : (2 ^ bits - 1) <<< shift < 2 ^ 15 := by
    rw [Nat.shiftLeft_eq]
    calc (2 ^ bits - 1) * 2 ^ shift
        < 2 ^ bits * 2 ^ shift := by
          have := Nat.two_pow_pos bits
          exact Nat.mul_lt_mul_of_pos_right (by omega) (Nat.two_pow_pos _)
      _ = 2 ^ (shift + bits) := by rw [Nat.pow_add, Nat.mul_comm]
      _ ≤ 2 ^ 15 := Nat.pow_le_pow_right (by omega) hbits
  apply BitVec.eq_of_toNat_eq
  rw [BitVec.toNat_ushiftRight, BitVec.toNat_and, BitVec.toNat_ofNat,
    BitVec.toNat_ofNat, BitVec.toNat_ofNat, BitVec.toNat_ofNat,
    Nat.mod_eq_of_lt (by omega : n < 2 ^ 32),
    Nat.mod_eq_of_lt (by omega : (2 ^ bits - 1) <<< shift < 2 ^ 32),
    Nat.mod_eq_of_lt (by omega : shift < 2 ^ 32), Nat.shiftRight_and_distrib,
    Nat.shiftLeft_shiftRight, Nat.and_two_pow_sub_one_eq_mod,
    Nat.shiftRight_eq_div_pow]
  have hle : n / 2 ^ shift % 2 ^ bits ≤ n :=
    (Nat.mod_le _ _).trans (Nat.div_le_self _ _)
  exact (Nat.mod_eq_of_lt (by omega)).symm

/-! ## Filters that follow the tree -/

theorem addElements_eq (f : Filter) (classes : List SelClass) :
    addElements f classes = { f with
      elements := f.elements ++ classes.map fun c =>
        ⟨c.info.address, .ofNat 32 c.number⟩ } := by
  induction classes generalizing f with
  | nil => simp [addElements]
  | cons c classes ih =>
      change addElements (f.addElement c.info c.number) classes = _
      rw [ih]
      simp [Filter.addElement]

/-- The filter for the classes that are registered for a qdisc. -/
def SelQdisc.filter (q : SelQdisc) : Filter where
  number := 1
  shift := .ofNat 32 q.shift
  mask := .ofNat 32 ((2 ^ q.bits - 1) <<< q.shift)
  elements := q.classes.map fun c => ⟨c.info.address, .ofNat 32 c.number⟩

/-- Only filters change. -/
structure Filtered (s t : State) : Prop where
  paths : t.paths = s.paths
  refs : t.refs = s.refs
  qdiscs : t.qdiscs = s.qdiscs
  numbers : t.numbers = s.numbers

theorem Filtered.refl (s : State) : Filtered s s := ⟨rfl, rfl, rfl, rfl⟩

theorem Filtered.trans {s t u : State} (h : Filtered s t) (h' : Filtered t u) :
    Filtered s u := ⟨h'.paths.trans h.paths, h'.refs.trans h.refs,
  h'.qdiscs.trans h.qdiscs, h'.numbers.trans h.numbers⟩

theorem Filtered.setFilters (s : State) (a : Nat) (filters : List Filter) :
    Filtered s (s.setFilters a filters) := ⟨rfl, rfl, rfl, rfl⟩

theorem setFilters_self (s : State) (a : Nat) (filters : List Filter) :
    (s.setFilters a filters).filters a = filters := if_pos rfl

theorem setFilters_ne {s : State} {a b : Nat} (h : b ≠ a)
    (filters : List Filter) :
    (s.setFilters a filters).filters b = s.filters b := if_neg h

theorem selAddHierFilters_spec (qdiscs : List SelQdisc)
    (hqdiscs : CountedQdiscs qdiscs) {s : State}
    (hclear : ∀ q ∈ qdiscs, s.filters q.qdisc.address = []) :
    wp (selAddHierFilters qdiscs) (fun _ t => Filtered s t ∧
        (∀ q ∈ qdiscs, t.filters q.qdisc.address = [q.filter]) ∧
        ∀ a ∉ qdiscs.map (·.qdisc.address), t.filters a = s.filters a)
      (fun _ _ => True) s := by
  induction qdiscs generalizing s with
  | nil => exact ⟨.refl s, fun _ h => (List.not_mem_nil h).elim, fun _ _ => rfl⟩
  | cons q qdiscs ih =>
      have haddresses := hqdiscs.addresses
      rw [List.map_cons, List.nodup_cons] at haddresses
      have hrest : CountedQdiscs qdiscs := ⟨haddresses.2, fun q hq =>
        hqdiscs.counted q (List.mem_cons_of_mem _ hq)⟩
      unfold selAddHierFilters selAddTcindex
      rw [if_neg (by simp [(hqdiscs.counted q List.mem_cons_self).gred]),
        wp_bind, wp_modify, wp_bind, wp_modify]
      have hnone := hclear q List.mem_cons_self
      have hother : ∀ q' ∈ qdiscs, q'.qdisc.address ≠ q.qdisc.address := by
        intro q' hq' heq
        apply haddresses.1
        rw [← heq]
        exact List.mem_map_of_mem hq'
      simp only [hnone, setFilters_self, addElements_eq]
      apply wp_mono (ih hrest _) _ (fun _ _ h => h)
      · intro q' hq'
        rw [setFilters_ne (hother q' hq'), setFilters_ne (hother q' hq')]
        exact hclear q' (List.mem_cons_of_mem _ hq')
      · rintro _ t ⟨hfiltered, hfilters, hsame⟩
        refine ⟨((Filtered.setFilters s _ _).trans
          (.setFilters _ _ _)).trans hfiltered, ?_, ?_⟩
        · intro q' hq'
          rcases List.mem_cons.mp hq' with rfl | hq'
          · rw [hsame _ haddresses.1, setFilters_self]
            rfl
          · exact hfilters q' hq'
        · intro a ha
          rw [List.map_cons, List.mem_cons, not_or] at ha
          rw [hsame a ha.2, setFilters_ne ha.1, setFilters_ne ha.1]

theorem SelQdisc.filter_picks {q : SelQdisc} (hq : q.Counted)
    (hrange : ∀ c ∈ q.classes, 0 < c.number ∧ c.number < 2 ^ q.bits)
    (hbits : q.shift + q.bits ≤ 15) {c : SelClass} (hc : c ∈ q.classes)
    {n : Nat} (hn : n < 2 ^ 15)
    (hcode : n / 2 ^ q.shift % 2 ^ q.bits = c.number) :
    q.filter.picks (.ofNat 32 n) = [c.info.address] := by
  have hless : ∀ c ∈ q.classes, c.number < 2 ^ 15 := fun c hc =>
    Nat.lt_of_lt_of_le (hrange c hc).2
      (Nat.pow_le_pow_right (by omega) (by omega))
  unfold Filter.picks SelQdisc.filter
  rw [mask_shift hn hbits, hcode, List.filter_map, List.map_map]
  have hsame : q.classes.filter ((fun e : Element =>
      e.number == BitVec.ofNat 32 c.number) ∘ fun c : SelClass =>
        ⟨c.info.address, .ofNat 32 c.number⟩) =
          q.classes.filter fun c' => c'.number == c.number := by
    apply List.filter_congr
    intro c' hc'
    rw [Function.comp_apply, Bool.eq_iff_iff, beq_iff_eq, beq_iff_eq]
    exact ofNat_inj (hless c' hc') (hless c hc)
  rw [hsame, filter_eq_singleton hq.numbers hc]
  rfl

/-- Each class that selects gets its code, and nothing else changes. -/
structure Coded (selecting : List Class) (codes : List Nat) (s t : State) :
    Prop where
  paths : t.paths = s.paths
  refs : t.refs = s.refs
  qdiscs : t.qdiscs = s.qdiscs
  filters : t.filters = s.filters
  others : ∀ c ∉ selecting, t.numbers c = s.numbers c
  numbers : List.Forall₂ (fun ref code => t.numbers ref = .ofNat 32 code)
    selecting codes

private theorem Coded.cons {ref : Class} {refs : List Class} {code : Nat}
    {codes : List Nat} {s t : State} (hfresh : ref ∉ refs)
    (h : Coded refs codes { s with
      numbers := fun c => if c = ref then .ofNat 32 code else s.numbers c } t) :
    Coded (ref :: refs) (code :: codes) s t where
  paths := h.paths
  refs := h.refs
  qdiscs := h.qdiscs
  filters := h.filters
  others c hc := by
    rw [List.mem_cons, not_or] at hc
    rw [h.others c hc.2]
    exact if_neg hc.1
  numbers := by
    refine .cons ?_ h.numbers
    rw [h.others ref hfresh]
    exact if_pos rfl

/-- `code` for each path, where the loop over the path yields it. -/
theorem selSetClassNumbers_codes {topShift : Nat} {refs : List Class}
    (hrefs : refs.Nodup) {paths : List SelPath} (code : SelPath → Nat)
    {s : State} (hcode : ∀ p ∈ paths, pathNumber s.qdiscs
      (.ofNat 32 (p.index <<< topShift)) p.path = .ok (.ofNat 32 (code p)))
    (hlength : refs.length = paths.length) :
    wp (selSetClassNumbers topShift refs paths)
      (fun _ t => Coded refs (paths.map code) s t) (fun _ _ => True) s := by
  induction refs generalizing paths s with
  | nil =>
      cases paths with
      | nil => exact ⟨rfl, rfl, rfl, rfl, fun _ _ => rfl, .nil⟩
      | cons p paths => cases hlength
  | cons ref refs ih =>
      cases paths with
      | nil => cases hlength
      | cons p paths =>
          rw [List.nodup_cons] at hrefs
          unfold selSetClassNumbers setNumber
          rw [wp_bind, wp_get, hcode p List.mem_cons_self, wp_bind, wp_lift]
          refine ⟨fun number hnumber => ?_, fun _ h => nomatch h⟩
          cases hnumber
          rw [wp_bind, wp_modify]
          apply wp_mono (ih hrefs.2 _ (Nat.succ.inj hlength)) _
            (fun _ _ h => h)
          · exact fun p' hp' => hcode p' (List.mem_cons_of_mem _ hp')
          · exact fun _ t ht => ht.cons hrefs.1

theorem setNumberRefs_codes (n : Nat) {refs : List Class}
    (hrefs : refs.Nodup) (s : State) :
    wp (setNumberRefs n refs) (fun _ t => n + refs.length < 2 ^ 15 ∧
        Coded refs (List.range' (n + 1) refs.length) s t)
      (fun _ _ => True) s := by
  induction refs generalizing n s with
  | nil =>
      unfold setNumberRefs
      rw [wp_ite]
      refine ⟨fun _ => trivial, fun hless => ⟨?_, ?_⟩⟩
      · exact Nat.not_le.mp hless
      · exact ⟨rfl, rfl, rfl, rfl, fun _ _ => rfl, .nil⟩
  | cons ref refs ih =>
      rw [List.nodup_cons] at hrefs
      unfold setNumberRefs setNumber
      rw [wp_bind, wp_modify]
      apply wp_mono (ih (n + 1) hrefs.2 _) _ (fun _ _ h => h)
      rintro _ t ⟨hless, ht⟩
      refine ⟨?_, ht.cons hrefs.1⟩
      rw [List.length_cons]
      omega

/-! ## Filters for paths that are simply counted -/

/-- The filter of a qdisc before there are elements. -/
def seqFilter : Filter where
  number := 1
  shift := .ofNat 32 0
  mask := .ofNat 32 ((2 ^ cspIndexBits - 1) <<< 0)
  elements := []

/-- The elements for the classes of a path at one qdisc. -/
def pathElements (a n : Nat) (path : List ClassInfo) : List Element :=
  (path.filter fun cl => cl.parent.address == a).map fun cl =>
    ⟨cl.address, .ofNat 32 n⟩

/-- All elements at one qdisc; `n` paths have been numbered before. -/
def seqElements (a n : Nat) : List SelPath → List Element
  | [] => []
  | p :: paths => pathElements a (n + 1) p.path ++ seqElements a (n + 1) paths

private theorem addSeqTcindex_spec (qdiscs : List SelQdisc)
    (hqdiscs : CountedQdiscs qdiscs) {s : State}
    (hclear : ∀ q ∈ qdiscs, s.filters q.qdisc.address = []) :
    wp (addSeqTcindex qdiscs) (fun _ t => Filtered s t ∧
        (∀ q ∈ qdiscs, t.filters q.qdisc.address = [seqFilter]) ∧
        ∀ a ∉ qdiscs.map (·.qdisc.address), t.filters a = s.filters a)
      (fun _ _ => True) s := by
  induction qdiscs generalizing s with
  | nil => exact ⟨.refl s, fun _ h => (List.not_mem_nil h).elim, fun _ _ => rfl⟩
  | cons q qdiscs ih =>
      have haddresses := hqdiscs.addresses
      rw [List.map_cons, List.nodup_cons] at haddresses
      have hrest : CountedQdiscs qdiscs := ⟨haddresses.2, fun q hq =>
        hqdiscs.counted q (List.mem_cons_of_mem _ hq)⟩
      have hother : ∀ q' ∈ qdiscs, q'.qdisc.address ≠ q.qdisc.address := by
        intro q' hq' heq
        apply haddresses.1
        rw [← heq]
        exact List.mem_map_of_mem hq'
      unfold addSeqTcindex selAddTcindex
      rw [if_neg (by simp [(hqdiscs.counted q List.mem_cons_self).gred]),
        wp_bind, wp_modify]
      simp only [hclear q List.mem_cons_self]
      apply wp_mono (ih hrest _) _ (fun _ _ h => h)
      · intro q' hq'
        rw [setFilters_ne (hother q' hq')]
        exact hclear q' (List.mem_cons_of_mem _ hq')
      · rintro _ t ⟨hfiltered, hfilters, hsame⟩
        refine ⟨(Filtered.setFilters s _ _).trans hfiltered, ?_, ?_⟩
        · intro q' hq'
          rcases List.mem_cons.mp hq' with rfl | hq'
          · rw [hsame _ haddresses.1, setFilters_self]
            rfl
          · exact hfilters q' hq'
        · intro a ha
          rw [List.map_cons, List.mem_cons, not_or] at ha
          rw [hsame a ha.2, setFilters_ne ha.1]

/-- A qdisc has one filter, with these elements. -/
def HasElements (s : State) (a : Nat) (elements : List Element) : Prop :=
  s.filters a = [{ seqFilter with elements }]

/-- Elements are added at each registered qdisc. -/
structure AddsElements (added : Nat → List Element) (s t : State) : Prop where
  filtered : Filtered s t
  elements : ∀ q ∈ s.qdiscs, ∀ elements,
    HasElements s q.qdisc.address elements →
      HasElements t q.qdisc.address (elements ++ added q.qdisc.address)

private theorem AddsElements.trans {added added' : Nat → List Element}
    {s t u : State} (h : AddsElements added s t) (h' : AddsElements added' t u) :
    AddsElements (fun a => added a ++ added' a) s u where
  filtered := h.filtered.trans h'.filtered
  elements q hq elements hs := by
    have ht := h.elements q hq elements hs
    rw [← h.filtered.qdiscs] at hq
    rw [← List.append_assoc]
    exact h'.elements q hq _ ht

private theorem addSeqElements_spec (n : Nat) (path : List ClassInfo)
    {s : State} (hs : ∀ q ∈ s.qdiscs, ∃ elements,
      HasElements s q.qdisc.address elements)
    (hgred : ∀ cl ∈ path, cl.parent.gred = false)
    (hnumbers : ∀ cl ∈ path, HasNumber s.qdiscs cl) :
    wp (addSeqElements n path)
      (fun _ t => AddsElements (pathElements · n path) s t)
      (fun _ _ => True) s := by
  induction path generalizing s with
  | nil =>
      refine ⟨.refl s, fun q _ elements h => ?_⟩
      simpa [pathElements] using h
  | cons cl path ih =>
      obtain ⟨q, c, hfinds⟩ := (hnumbers cl List.mem_cons_self).finds
      obtain ⟨hmem, haddress⟩ := findQdisc_some hfinds.qdisc
      obtain ⟨elements, helements⟩ := hs q hmem
      unfold addSeqElements
      rw [wp_bind, wp_get, if_neg (by simp [hgred cl List.mem_cons_self]),
        hfinds.found, wp_bind, wp_lift]
      refine ⟨fun found hfound => ?_, fun _ h => nomatch h⟩
      cases hfound
      dsimp only
      rw [helements]
      dsimp only
      rw [wp_bind, wp_modify]
      have hfirst : AddsElements (pathElements · n [cl]) s
          (s.setFilters q.qdisc.address
            [Filter.addElement { seqFilter with elements } c.info n]) := by
        refine ⟨.setFilters s _ _, fun q' hq' elements' h' => ?_⟩
        by_cases hsame : q'.qdisc.address = q.qdisc.address
        · rw [HasElements, hsame, helements] at h'
          cases h'
          rw [HasElements, hsame, setFilters_self]
          simp [Filter.addElement, pathElements, haddress, hfinds.address]
        · rw [HasElements, setFilters_ne hsame, h']
          simp [pathElements, ← haddress, Ne.symm hsame]
      apply wp_mono (ih _ _ _) _ (fun _ _ h => h)
      · intro q' hq'
        obtain ⟨elements', helements'⟩ := hs q' hq'
        exact ⟨_, hfirst.elements q' hq' _ helements'⟩
      · exact fun cl' hcl' => hgred cl' (List.mem_cons_of_mem _ hcl')
      · exact fun cl' hcl' => hnumbers cl' (List.mem_cons_of_mem _ hcl')
      · intro _ t ht
        have hadded : (pathElements · n (cl :: path)) = fun a =>
            pathElements a n [cl] ++ pathElements a n path := by
          funext a
          by_cases ha : cl.parent.address = a
          · simp [pathElements, ha]
          · simp [pathElements, ha]
        rw [hadded]
        exact hfirst.trans ht

private theorem addSeqPaths_spec (n : Nat) (paths : List SelPath) {s : State}
    (hs : ∀ q ∈ s.qdiscs, ∃ elements, HasElements s q.qdisc.address elements)
    (hgred : ∀ p ∈ paths, ∀ cl ∈ p.path, cl.parent.gred = false)
    (hnumbers : ∀ p ∈ paths, ∀ cl ∈ p.path, HasNumber s.qdiscs cl) :
    wp (addSeqPaths n paths) (fun _ t => AddsElements (seqElements · n paths) s t)
      (fun _ _ => True) s := by
  induction paths generalizing n s with
  | nil =>
      refine ⟨.refl s, fun q _ elements h => ?_⟩
      simpa [seqElements] using h
  | cons p paths ih =>
      unfold addSeqPaths
      rw [wp_bind]
      apply wp_mono (addSeqElements_spec (n + 1) p.path hs
        (hgred p List.mem_cons_self) (hnumbers p List.mem_cons_self)) _
        (fun _ _ h => h)
      intro _ t ht
      apply wp_mono (ih (n + 1) _ _ _) _ (fun _ _ h => h)
      · intro q hq
        rw [ht.filtered.qdiscs] at hq
        obtain ⟨elements, helements⟩ := hs q hq
        exact ⟨_, ht.elements q hq _ helements⟩
      · exact fun p' hp' => hgred p' (List.mem_cons_of_mem _ hp')
      · rw [ht.filtered.qdiscs]
        exact fun p' hp' => hnumbers p' (List.mem_cons_of_mem _ hp')
      · exact fun _ u hu => ht.trans hu

private theorem number_of_mem_seqElements {a n : Nat} {paths : List SelPath}
    {e : Element} (h : e ∈ seqElements a n paths) :
    ∃ code, n < code ∧ code ≤ n + paths.length ∧ e.number = .ofNat 32 code := by
  induction paths generalizing n with
  | nil => cases h
  | cons p paths ih =>
      rw [seqElements, List.mem_append] at h
      rcases h with h | h
      · obtain ⟨cl, -, rfl⟩ := List.mem_map.mp h
        refine ⟨n + 1, by omega, ?_, rfl⟩
        rw [List.length_cons]
        omega
      · obtain ⟨code, hless, hle, hnumber⟩ := ih h
        refine ⟨code, by omega, ?_, hnumber⟩
        rw [List.length_cons]
        omega

/-- Elements with the number of a path are those for its classes. -/
private theorem seqElements_filter (a : Nat) {n : Nat} {paths : List SelPath}
    (hless : n + paths.length < 2 ^ 15) :
    List.Forall₂ (fun p code => (seqElements a n paths).filter (fun e =>
        e.number == BitVec.ofNat 32 code) = pathElements a code p.path)
      paths (List.range' (n + 1) paths.length) := by
  induction paths generalizing n with
  | nil => exact .nil
  | cons p paths ih =>
      rw [List.length_cons] at hless
      rw [List.length_cons, List.range'_succ]
      constructor
      · have hrest : (seqElements a (n + 1) paths).filter (fun e =>
            e.number == BitVec.ofNat 32 (n + 1)) = [] := by
          apply List.filter_eq_nil_iff.mpr
          intro e he heq
          obtain ⟨code, hless', hle, hnumber⟩ := number_of_mem_seqElements he
          rw [hnumber, beq_iff_eq, ofNat_inj (by omega) (by omega)] at heq
          omega
        rw [seqElements, List.filter_append, hrest, List.append_nil]
        apply List.filter_eq_self.mpr
        intro e he
        obtain ⟨cl, -, rfl⟩ := List.mem_map.mp he
        exact beq_self_eq_true _
      · have hih := ih (n := n + 1) (by omega)
        rw [List.forall₂_iff_get] at hih ⊢
        refine ⟨hih.1, fun i hi hi' => ?_⟩
        have hcode := hih.2 i hi hi'
        have hhead : (pathElements a (n + 1) p.path).filter (fun e => e.number ==
            BitVec.ofNat 32 ((List.range' (n + 1 + 1) paths.length).get
              ⟨i, hi'⟩)) = [] := by
          apply List.filter_eq_nil_iff.mpr
          intro e he heq
          obtain ⟨cl, -, rfl⟩ := List.mem_map.mp he
          simp only [List.length_range'] at hi'
          simp only [List.get_eq_getElem, List.getElem_range', beq_iff_eq] at heq
          rw [ofNat_inj (by omega) (by omega)] at heq
          omega
        rw [seqElements, List.filter_append, hhead, List.nil_append, hcode]

theorem seqFilter_picks {path : List ClassInfo}
    (hnodup : (path.map (·.parent.address)).Nodup) {cl : ClassInfo}
    (hcl : cl ∈ path) {elements : List Element} {code : Nat}
    (hcode : code < 2 ^ 15) (helements : elements.filter (fun e =>
      e.number == BitVec.ofNat 32 code) =
        pathElements cl.parent.address code path) :
    Filter.picks { seqFilter with elements } (.ofNat 32 code) =
      [cl.address] := by
  have hmask := mask_shift hcode (Nat.le_refl (0 + 15))
  rw [Nat.pow_zero, Nat.div_one, Nat.mod_eq_of_lt hcode] at hmask
  unfold Filter.picks
  change (elements.filter fun e => e.number ==
    (BitVec.ofNat 32 code &&& .ofNat 32 ((2 ^ 15 - 1) <<< 0)) >>>
      (BitVec.ofNat 32 0).toNat).map Element.toClass = _
  rw [hmask, helements, pathElements, filter_eq_singleton hnodup hcl]
  rfl

/-! ## Both ways -/

private theorem Indexed.index_lt {paths : List SelPath} (h : Indexed paths)
    {p : SelPath} (hp : p ∈ paths) :
    p.index < paths.countP (fun walk => samePath walk.path p.path) := by
  induction paths with
  | nil => cases hp
  | cons p' paths ih =>
      obtain ⟨hindex, -, hrest⟩ := h
      rw [List.countP_cons]
      rcases List.mem_cons.mp hp with rfl | hp
      · rw [hindex, if_pos (by rw [samePath, beq_self_eq_true])]
        exact Nat.lt_succ_self _
      · exact Nat.lt_of_lt_of_le (ih hrest hp) (Nat.le_add_right _ _)

theorem Indexed.index_lt_equals {paths : List SelPath}
    (h : Indexed paths) : ∀ p ∈ paths, p.index < p.equals := by
  induction paths with
  | nil => exact fun _ h => (List.not_mem_nil h).elim
  | cons p paths ih =>
      intro p' hp'
      rcases List.mem_cons.mp hp' with rfl | hp'
      · exact h.2.1
      · exact ih h.2.2 p' hp'

/-- The code of a path: its index on top of what the path sets. -/
def pathCode (qdiscs : List SelQdisc) (bits : Nat) (p : SelPath) : Nat :=
  2 ^ bits * p.index + pathValue qdiscs p.path

/-- Codes are different if paths and what they set are. -/
private theorem pathCode_nodup {qdiscs : List SelQdisc} {bits : Nat}
    {paths : List SelPath} (hindexed : Indexed paths)
    (hless : ∀ p ∈ paths, pathValue qdiscs p.path < 2 ^ bits)
    (hinj : ∀ p ∈ paths, ∀ p' ∈ paths,
      pathValue qdiscs p.path = pathValue qdiscs p'.path → p.path = p'.path) :
    (paths.map (pathCode qdiscs bits)).Nodup := by
  induction paths with
  | nil => exact List.nodup_nil
  | cons p paths ih =>
      rw [List.map_cons, List.nodup_cons]
      refine ⟨fun hmem => ?_, ih hindexed.2.2
        (fun p hp => hless p (List.mem_cons_of_mem _ hp))
        fun p hp p' hp' => hinj p (List.mem_cons_of_mem _ hp) p'
          (List.mem_cons_of_mem _ hp')⟩
      obtain ⟨p', hp', heq⟩ := List.mem_map.mp hmem
      have hp := hless p List.mem_cons_self
      have hp'' := hless p' (List.mem_cons_of_mem _ hp')
      unfold pathCode at heq
      have hindex : p'.index = p.index := by
        have hdiv := congrArg (· / 2 ^ bits) heq
        simpa only [Nat.mul_add_div (Nat.two_pow_pos _), Nat.div_eq_of_lt hp,
          Nat.div_eq_of_lt hp'', Nat.add_zero] using hdiv
      have hsame : p'.path = p.path := by
        apply hinj p' (List.mem_cons_of_mem _ hp') p List.mem_cons_self
        rw [hindex] at heq
        omega
      have hlt := hindexed.2.2.index_lt hp'
      rw [hsame, ← hindexed.1, hindex] at hlt
      exact Nat.lt_irrefl _ hlt

theorem equals_le_max (paths : List SelPath) (m : Nat) :
    m ≤ paths.foldl (fun max path =>
        if path.equals > max then path.equals else max) m ∧
      ∀ p ∈ paths, p.equals ≤ paths.foldl (fun max path =>
        if path.equals > max then path.equals else max) m := by
  induction paths generalizing m with
  | nil => exact ⟨Nat.le_refl _, fun _ h => (List.not_mem_nil h).elim⟩
  | cons p paths ih =>
      obtain ⟨hm, hpaths⟩ := ih (if p.equals > m then p.equals else m)
      rw [List.foldl_cons]
      have hboth : m ≤ (if p.equals > m then p.equals else m) ∧
          p.equals ≤ if p.equals > m then p.equals else m := by
        split <;> omega
      refine ⟨hboth.1.trans hm, fun p' hp' => ?_⟩
      rcases List.mem_cons.mp hp' with rfl | hp'
      · exact hboth.2.trans hm
      · exact hpaths p' hp'

/-- Each selecting class has its own code, which leads along its path. -/
structure Resolved (selecting : List OuterClass) (paths : List SelPath)
    (codes : List Nat) (t : State) : Prop where
  nodup : codes.Nodup
  less : ∀ code ∈ codes, code < 2 ^ 15
  numbers : List.Forall₂ (fun ref code => t.numbers ref = .ofNat 32 code)
    (selecting.map OuterClass.address) codes
  follows : List.Forall₂ (fun p code => t.Follows (.ofNat 32 code) p.path)
    paths codes

/-- What holds for one of the selecting classes. -/
private theorem Resolved.get {inner : InnerQdisc}
    {selecting : List OuterClass} {paths : List SelPath} {codes : List Nat}
    {t : State} (h : Resolved selecting paths codes t)
    (hpaths : List.Forall₂ (fun cl p => ∃ list, cl.selPath = some list ∧
      Resolves inner (pathClasses list) p.path) selecting paths)
    {cl : OuterClass} (hcl : cl ∈ selecting) :
    ∃ i, ∃ (hi : i < selecting.length) (hi' : i < codes.length),
      selecting[i] = cl ∧ t.numbers cl.address = .ofNat 32 codes[i] ∧
        ∃ list, cl.selPath = some list ∧ ∃ path,
          Resolves inner (pathClasses list) path ∧
            t.Follows (.ofNat 32 codes[i]) path := by
  obtain ⟨i, hi, rfl⟩ := List.getElem_of_mem hcl
  obtain ⟨hlength, hpath⟩ := List.forall₂_iff_get.mp hpaths
  obtain ⟨hlength', hfollows⟩ := List.forall₂_iff_get.mp h.follows
  obtain ⟨-, hnumbers⟩ := List.forall₂_iff_get.mp h.numbers
  have hi' : i < codes.length := by omega
  obtain ⟨list, hlist, hresolves⟩ := hpath i hi (by omega)
  refine ⟨i, hi, hi', rfl, ?_, list, hlist, _, hresolves,
    hfollows i (by omega) hi'⟩
  have hnumber := hnumbers i (by rw [List.length_map]; exact hi) hi'
  simpa using hnumber

section

variable {inner : InnerTree} (hgred : ∀ q ∈ inner.qdisc.qdiscs, q.gred = false)
  {selecting : List OuterClass}
  (hselecting : (selecting.map OuterClass.address).Nodup) {s : State}
  (hs : Prepared inner selecting s)

include hs

private theorem Prepared.isPath : ∀ p ∈ s.paths, QdiscPath inner.qdisc p.path := by
  intro p hp
  obtain ⟨i, hi, rfl⟩ := List.getElem_of_mem hp
  obtain ⟨list, -, hpath⟩ := (List.forall₂_iff_get.mp hs.resolved).2 i
    (by rw [hs.resolved.length_eq]; exact hi) hi
  exact hpath.isPath

private theorem Prepared.length : s.refs.length = s.paths.length := by
  rw [hs.refs, List.length_map, hs.resolved.length_eq]

private theorem Prepared.unfiltered_core {qdiscs : List SelQdisc}
    (hcore : qdiscs.map SelQdisc.core = s.qdiscs.map SelQdisc.core) :
    ∀ q ∈ qdiscs, s.filters q.qdisc.address = [] := by
  intro q hq
  obtain ⟨q', hq', heq⟩ := mem_core hcore hq
  have hqdisc : q.qdisc = q'.qdisc := congrArg Prod.fst heq
  rw [hqdisc]
  exact hs.unfiltered q' hq'

include hgred hselecting

omit hgred in
/-- Numbers that follow the tree. -/
private theorem resolved_hier {qdiscs : List SelQdisc}
    (hcomputed : Computed (inner.qdisc.qdiscs.map QdiscInfo.address) s.qdiscs
      (Laid · inner.qdisc) (width s.qdiscs inner.qdisc)
      (qdiscs, width s.qdiscs inner.qdisc)) {topBits : Nat}
    (hequals : ∀ p ∈ s.paths, p.equals ≤ 2 ^ topBits)
    (hbits : topBits + width s.qdiscs inner.qdisc ≤ 15) :
    wp (do
        selAddHierFilters qdiscs
        selSetClassNumbers (width s.qdiscs inner.qdisc) s.refs s.paths)
      (fun _ t => ∃ codes, Resolved selecting s.paths codes t)
      (fun _ _ => True) { s with qdiscs } := by
  have hcore := hcomputed.resized.core
  have hcounted := hs.qdiscs.core hcore
  have hpath := hs.isPath
  have hnumbers : ∀ p ∈ s.paths, ∀ cl ∈ p.path, HasNumber qdiscs cl :=
    fun p hp cl hcl => (hs.numbered p hp cl hcl).core hcore
  have hlaid : Laid qdiscs inner.qdisc := hcomputed.laid
  have hless : ∀ p ∈ s.paths,
      pathValue qdiscs p.path < 2 ^ width s.qdiscs inner.qdisc := by
    intro p hp
    rw [← width_congr hcore]
    exact (hpath p hp).pathValue_lt hcounted inner.owned hlaid (hnumbers p hp)
  have hcode : ∀ p ∈ s.paths,
      pathCode qdiscs (width s.qdiscs inner.qdisc) p < 2 ^ 15 := by
    intro p hp
    have hindex := hs.indexed.index_lt_equals p hp
    have hle := hequals p hp
    calc pathCode qdiscs (width s.qdiscs inner.qdisc) p
        < 2 ^ width s.qdiscs inner.qdisc * p.index +
            2 ^ width s.qdiscs inner.qdisc :=
          Nat.add_lt_add_left (hless p hp) _
      _ = 2 ^ width s.qdiscs inner.qdisc * (p.index + 1) :=
          (Nat.mul_succ _ _).symm
      _ ≤ 2 ^ width s.qdiscs inner.qdisc * 2 ^ topBits :=
          Nat.mul_le_mul_left _ (by omega)
      _ = 2 ^ (topBits + width s.qdiscs inner.qdisc) := by
          rw [Nat.pow_add, Nat.mul_comm]
      _ ≤ 2 ^ 15 := Nat.pow_le_pow_right (by omega) hbits
  have hclear : ∀ q ∈ qdiscs,
      State.filters { s with qdiscs } q.qdisc.address = [] :=
    hs.unfiltered_core hcore
  rw [wp_bind]
  apply wp_mono (selAddHierFilters_spec qdiscs hcounted hclear) _
    (fun _ _ h => h)
  rintro _ t ⟨hfiltered, hfilters, -⟩
  have hrefs : s.refs.Nodup := by
    rw [hs.refs]
    exact hselecting
  apply wp_mono (selSetClassNumbers_codes hrefs
    (pathCode qdiscs (width s.qdiscs inner.qdisc)) _ hs.length) _
    (fun _ _ h => h)
  · intro p hp
    rw [hfiltered.qdiscs, Nat.shiftLeft_eq, Nat.mul_comm]
    apply (hpath p hp).pathNumber hcounted inner.owned hlaid (hnumbers p hp)
    rw [width_congr hcore]
    exact Nat.dvd_mul_right _ _
  · intro _ u hu
    refine ⟨_, ⟨?_, ?_, hs.refs ▸ hu.numbers, ?_⟩⟩
    · apply pathCode_nodup hs.indexed hless
      intro p hp p' hp' heq
      exact (hpath p hp).pathValue_inj hcounted (hpath p' hp') inner.owned hlaid
        inner.classes (hnumbers p hp) (hnumbers p' hp') heq
    · intro code hmem
      obtain ⟨p, hp, rfl⟩ := List.mem_map.mp hmem
      exact hcode p hp
    · rw [List.forall₂_map_right_iff, List.forall₂_same]
      intro p hp cl hcl
      have hmod : pathCode qdiscs (width s.qdiscs inner.qdisc) p %
          2 ^ width qdiscs inner.qdisc = pathValue qdiscs p.path := by
        rw [width_congr hcore, pathCode, Nat.mul_add_mod,
          Nat.mod_eq_of_lt (hless p hp)]
      obtain ⟨q, c, hfinds, hle, hrange, hnumber⟩ := (hpath p hp).decodes
        hcounted inner.owned hlaid (hnumbers p hp) hmod cl hcl
      obtain ⟨hmem, haddress⟩ := findQdisc_some hfinds.qdisc
      refine ⟨q.filter, ?_, ?_⟩
      · rw [hu.filters, ← haddress]
        exact hfilters q hmem
      · rw [← hfinds.address]
        rw [width_congr hcore] at hle
        exact SelQdisc.filter_picks (hcounted.counted q hmem) hrange (by omega)
          hfinds.mem (hcode p hp) hnumber

/-- Numbers that are simply counted. -/
private theorem resolved_seq {qdiscs : List SelQdisc}
    (hcore : qdiscs.map SelQdisc.core = s.qdiscs.map SelQdisc.core) :
    wp (do
        setNumberRefs 0 s.refs
        selAddSeqFilters)
      (fun _ t => ∃ codes, Resolved selecting s.paths codes t)
      (fun _ _ => True) { s with qdiscs } := by
  have hcounted := hs.qdiscs.core hcore
  have hnumbers : ∀ p ∈ s.paths, ∀ cl ∈ p.path, HasNumber qdiscs cl :=
    fun p hp cl hcl => (hs.numbered p hp cl hcl).core hcore
  have hrefs : s.refs.Nodup := by
    rw [hs.refs]
    exact hselecting
  rw [wp_bind]
  apply wp_mono (setNumberRefs_codes 0 hrefs _) _ (fun _ _ h => h)
  rintro _ t ⟨hless, ht⟩
  rw [hs.length, Nat.zero_add] at hless
  unfold selAddSeqFilters
  rw [wp_bind, wp_get, wp_bind, ht.qdiscs, ht.paths]
  have hclear : ∀ q ∈ qdiscs, t.filters q.qdisc.address = [] := by
    rw [ht.filters]
    exact hs.unfiltered_core hcore
  apply wp_mono (addSeqTcindex_spec qdiscs hcounted hclear) _ (fun _ _ h => h)
  rintro _ u ⟨htu, hfilters, -⟩
  have hqdiscs : u.qdiscs = qdiscs := htu.qdiscs.trans ht.qdiscs
  have helements : ∀ q ∈ u.qdiscs, HasElements u q.qdisc.address [] := by
    rw [hqdiscs]
    exact hfilters
  apply wp_mono (addSeqPaths_spec 0 s.paths
    (fun q hq => ⟨[], helements q hq⟩) _ (by rwa [hqdiscs])) _ (fun _ _ h => h)
  · intro p hp cl hcl
    exact hgred _ ((hs.isPath p hp).parents inner.owned cl hcl)
  · intro _ v hv
    refine ⟨List.range' 1 s.refs.length, List.nodup_range', ?_, ?_, ?_⟩
    · intro code hcode
      rw [List.mem_range'_1, hs.length] at hcode
      omega
    · rw [hv.filtered.numbers, htu.numbers, ← hs.refs]
      exact ht.numbers
    · rw [hs.length, List.forall₂_iff_get]
      refine ⟨by rw [List.length_range'], fun i hi hi' => ?_⟩
      intro cl hcl
      have hp := List.getElem_mem hi
      obtain ⟨q, c, hfinds⟩ := (hnumbers _ hp cl hcl).finds
      obtain ⟨hmem, haddress⟩ := findQdisc_some hfinds.qdisc
      have hfilter := hv.elements q (hqdiscs ▸ hmem) [] (helements q
        (hqdiscs ▸ hmem))
      rw [haddress, List.nil_append] at hfilter
      refine ⟨_, hfilter, ?_⟩
      apply seqFilter_picks ((hs.isPath _ hp).parents_nodup inner.owned
        inner.qdiscs) hcl
      · simp only [List.get_eq_getElem, List.getElem_range']
        omega
      · have hless' : 0 + s.paths.length < 2 ^ 15 := by omega
        have hseq := seqElements_filter cl.parent.address hless'
        exact (List.forall₂_iff_get.mp hseq).2 i hi hi'

theorem endSelectionPaths_resolves :
    wp (endSelectionPaths inner.qdisc)
      (fun _ t => ∃ codes, Resolved selecting s.paths codes t)
      (fun _ _ => True) s := by
  unfold endSelectionPaths
  rw [wp_bind, wp_get, wp_ite]
  refine ⟨fun hnil => ?_, fun _ => ?_⟩
  · have hselecting : selecting = [] := by
      have hresolved := hs.resolved
      rw [hnil, List.forall₂_nil_right_iff] at hresolved
      exact hresolved
    refine ⟨[], List.nodup_nil, fun _ h => (List.not_mem_nil h).elim, ?_, ?_⟩
    · rw [hselecting]
      exact .nil
    · rw [hnil]
      exact .nil
  · have hcomputed := selectionBits_computes s.qdiscs inner.qdisc inner.qdiscs
      hgred
    dsimp only
    generalize selectionBits s.qdiscs inner.qdisc = result at *
    obtain ⟨qdiscs, bits⟩ := result
    obtain rfl : bits = _ := hcomputed.bits
    dsimp only
    rw [wp_bind, wp_modify, wp_ite]
    refine ⟨fun hbits => ?_, fun _ => ?_⟩
    · apply resolved_hier hselecting hs hcomputed _ hbits
      intro p hp
      exact ((equals_le_max s.paths 0).2 p hp).trans (countBits_le _ _)
    · exact resolved_seq hgred hselecting hs hcomputed.resized.core

end

/-- Classes that select have different numbers, and along the path of each,
every filter picks the class of the path. -/
theorem classSelectionPaths_follows (inner : InnerTree)
    (hgred : ∀ q ∈ inner.qdisc.qdiscs, q.gred = false)
    (classes : List OuterClass)
    (hclasses : (classes.map OuterClass.address).Nodup) {s t : State}
    (hrun : classSelectionPaths classes inner.qdisc s = (.ok (), t)) :
    (∀ cl ∈ classes, ∀ cl' ∈ classes, cl.selPath ≠ none → cl'.selPath ≠ none →
      t.numbers cl.address = t.numbers cl'.address → cl = cl') ∧
    ∀ cl ∈ classes, ∀ list, cl.selPath = some list →
      (t.numbers cl.address).toNat < 2 ^ 15 ∧
        (∃ path, Resolves inner.qdisc (pathClasses list) path) ∧
        ∀ path, Resolves inner.qdisc (pathClasses list) path →
          t.Follows (t.numbers cl.address) path := by
  have hempty : Prepared inner []
      { s with paths := [], refs := [], qdiscs := [] } := by
    refine ⟨⟨List.nodup_nil, ?_⟩, ?_, trivial, ?_, rfl, .nil⟩
    all_goals exact fun _ h => (List.not_mem_nil h).elim
  have hselecting : (((classes.filter fun cl : OuterClass =>
      cl.selPath.isSome).reverse ++ []).map OuterClass.address).Nodup := by
    rw [List.append_nil, List.map_reverse, List.nodup_reverse]
    exact hclasses.sublist (List.filter_sublist.map _)
  have hmem {cl : OuterClass} (hcl : cl ∈ classes) (hsel : cl.selPath ≠ none) :
      cl ∈ (classes.filter fun cl : OuterClass =>
        cl.selPath.isSome).reverse ++ [] := by
    simp only [List.append_nil, List.mem_reverse, List.mem_filter]
    exact ⟨hcl, Option.isSome_iff_ne_none.mpr hsel⟩
  have hwp : wp (classSelectionPaths classes inner.qdisc)
      (fun _ t => ∃ paths codes, List.Forall₂ (fun cl p => ∃ list,
          cl.selPath = some list ∧
            Resolves inner.qdisc (pathClasses list) p.path)
          ((classes.filter fun cl : OuterClass =>
            cl.selPath.isSome).reverse ++ []) paths ∧
        Resolved ((classes.filter fun cl : OuterClass =>
          cl.selPath.isSome).reverse ++ []) paths codes t)
      (fun _ _ => True) s := by
    unfold classSelectionPaths
    rw [wp_bind, wp_modify, wp_bind]
    apply wp_mono (registerClasses_prepares inner hgred classes hempty) _
      (fun _ _ h => h)
    rintro _ u ⟨-, -, hu⟩
    apply wp_mono (endSelectionPaths_resolves hgred hselecting hu) _
      (fun _ _ h => h)
    rintro _ v ⟨codes, hv⟩
    exact ⟨u.paths, codes, hu.resolved, hv⟩
  obtain ⟨paths, codes, hpaths, hcodes⟩ := wp_ok hrun hwp
  have hget (cl : OuterClass) (hcl : cl ∈ classes) (hsel : cl.selPath ≠ none) :=
    hcodes.get hpaths (hmem hcl hsel)
  constructor
  · intro cl hcl cl' hcl' hsel hsel' heq
    obtain ⟨i, hi, hi', hcl, hnumber, -⟩ := hget cl hcl hsel
    obtain ⟨j, hj, hj', hcl', hnumber', -⟩ := hget cl' hcl' hsel'
    rw [hnumber, hnumber', ofNat_inj (hcodes.less _ (List.getElem_mem hi'))
      (hcodes.less _ (List.getElem_mem hj'))] at heq
    obtain rfl := (List.Nodup.getElem_inj_iff hcodes.nodup).mp heq
    exact hcl.symm.trans hcl'
  · intro cl hcl list hlist
    obtain ⟨i, hi, hi', -, hnumber, list', hlist', path, hpath, hfollows⟩ :=
      hget cl hcl (by rw [hlist]; nofun)
    cases Option.some.inj (hlist.symm.trans hlist')
    have hless := hcodes.less _ (List.getElem_mem hi')
    rw [hnumber]
    refine ⟨?_, ⟨path, hpath⟩, fun path' hpath' => ?_⟩
    · rw [BitVec.toNat_ofNat]
      omega
    · rw [hpath'.unique inner.classes hpath]
      exact hfollows

/-- A class of an outer qdisc beside one with a qdisc of its own. -/
def nestedTree : InnerTree where
  qdisc := .qdisc ⟨1, false⟩
    (.class ⟨10, 0, ⟨1, false⟩⟩
      (.qdisc ⟨2, false⟩ (.class ⟨11, 0, ⟨2, false⟩⟩ .null .null .null)) .null
      (.class ⟨12, 0, ⟨1, false⟩⟩ .null .null .null))
  owned := ⟨rfl, ⟨rfl, trivial, trivial, trivial⟩, trivial, rfl, trivial,
    trivial, trivial⟩
  qdiscs := by decide
  classes := by decide

/-- Two classes that select the same path, and two that select others. -/
def selectingClasses : List OuterClass :=
  [⟨20, some [.toClass 11]⟩, ⟨21, some [.toClass 10]⟩,
    ⟨22, some [.toClass 10, .toClass 11]⟩, ⟨23, none⟩, ⟨24, some [.toClass 12]⟩]

def State.unnumbered : State where
  paths := []
  refs := []
  qdiscs := []
  filters := fun _ => []
  numbers := fun _ => undefU32

theorem classSelectionPaths_follows_nested :
    ∃ path, Resolves nestedTree.qdisc [10, 11] path ∧
      (classSelectionPaths selectingClasses nestedTree.qdisc .unnumbered).2.Follows
        ((classSelectionPaths selectingClasses nestedTree.qdisc
          .unnumbered).2.numbers 22) path := by
  have hok : (classSelectionPaths selectingClasses nestedTree.qdisc
      .unnumbered).1 = .ok () := by
    decide +kernel
  have hrun : classSelectionPaths selectingClasses nestedTree.qdisc .unnumbered =
      (.ok (), (classSelectionPaths selectingClasses nestedTree.qdisc
        .unnumbered).2) := by
    rw [← hok]
  obtain ⟨-, ⟨path, hpath⟩, hfollows⟩ :=
    (classSelectionPaths_follows nestedTree (by decide) selectingClasses
      (by decide) hrun).2 ⟨22, some [.toClass 10, .toClass 11]⟩ (by decide)
        [.toClass 10, .toClass 11] rfl
  exact ⟨path, hpath, hfollows path hpath⟩

end Tcng.Csp
