import Mathlib.Data.Finset.Card
import Mathlib.Logic.Function.Basic
import Mathlib.Order.Interval.Finset.Nat
import Tcng.Data
import Tcng.Lib.Mask
import Tcng.Tree.Qdisc

/-! Numbers of qdiscs (`qdisc.c`). -/

namespace Tcng

variable {C : Type}

/-- The `number` of each qdisc by address, and `curr_id`. -/
structure QdiscIds where
  number : Nat → BitVec 32
  currId : BitVec 32

def countQdiscIds (number : Nat → BitVec 32) (user : BitVec 32)
    (root : Qdisc Nat C) : Nat :=
  countQdiscs (fun qdisc => number qdisc == user) root

/-- `while (recurse_qdisc(root,count_qdisc_ids,&curr_id)) curr_id++;` -/
def nextQdiscId (number : Nat → BitVec 32) (root : Qdisc Nat C) :
    Nat → BitVec 32 → Option (BitVec 32)
  | 0, _ => none
  | fuel + 1, currId =>
      if countQdiscIds number currId root ≠ 0 then
        nextQdiscId number root fuel (currId + 1)
      else some currId

/-- Once every number has been tried the search does not end. -/
def chooseQdiscId (root : Qdisc Nat C) (qdisc : Nat) :
    Program QdiscIds Error Unit := do
  let s ← .get
  if s.number qdisc ≠ undefU32 then
    if 1 < countQdiscIds s.number (s.number qdisc) root then
      .throw (.error ("duplicate qdisc ID 0x" ++ hex (s.number qdisc)))
    else pure ()
  else
    match nextQdiscId s.number root (2 ^ 32) s.currId with
    | none => .throw .outOfFuel
    | some id => .modify fun s =>
        { number := Function.update s.number qdisc id, currId := id }

def assignQdiscId (root : Qdisc Nat C) (qdisc : Nat) :
    Program QdiscIds Error Nat := do
  chooseQdiscId root qdisc
  let s ← .get
  if s.number qdisc = 0 ∨ s.number qdisc &&& ~~~0xffff ≠ 0 then
    .throw (.error ("invalid qdisc ID 0x" ++ hex (s.number qdisc)))
  else pure 0

def assignQdiscIds (root : Qdisc Nat C) : Program QdiscIds Error Unit := do
  .modify fun s => { s with currId := 1 }
  let _ ← recurseQdisc (assignQdiscId root) root
  pure ()

/-! ## What the numbers have to satisfy -/

/-- The addresses of one tree. -/
structure QdiscTree (C : Type) where
  root : Qdisc Nat C
  distinct : root.qdiscs.Nodup

/-- No two of the qdiscs have the same number, all are valid, and the given
ones are as they were. -/
structure QdiscsNumbered (qdiscs : List Nat)
    (given number : Nat → BitVec 32) : Prop where
  distinct : qdiscs.Pairwise fun a b => number a ≠ number b
  valid : ∀ a ∈ qdiscs, 1 ≤ (number a).toNat ∧ (number a).toNat ≤ 0xffff
  kept : ∀ a ∈ qdiscs, given a ≠ undefU32 → number a = given a

/-- No two qdiscs are given the same number. -/
def GivenDistinct (qdiscs : List Nat) (given : Nat → BitVec 32) : Prop :=
  qdiscs.Pairwise fun a b => given a ≠ undefU32 → given a ≠ given b

/-- The numbers left for qdiscs without one. -/
def freeQdiscIds (qdiscs : List Nat) (number : Nat → BitVec 32) : Finset Nat :=
  (Finset.Icc 1 0xffff).filter fun n => ∀ a ∈ qdiscs, (number a).toNat ≠ n

/-- What ends the assignment with a message: an invalid number, a number seen
in two branches of the root, or too many qdiscs without one. -/
inductive QdiscsRejected (root : Qdisc Nat C) (given : Nat → BitVec 32) : Prop
  | invalid (a : Nat) (member : a ∈ root.qdiscs) (isGiven : given a ≠ undefU32)
      (outside : given a = 0 ∨ 0xffff < (given a).toNat)
  | repeated (v : BitVec 32) (isGiven : v ≠ undefU32) (x y : List Nat)
      (branches : [x, y].Sublist root.branches) (left : ∃ a ∈ x, given a = v)
      (right : ∃ b ∈ y, given b = v)
  | exhausted (few : (freeQdiscIds root.qdiscs given).card <
      root.qdiscs.countP fun a => given a = undefU32)

/-! ## Counting and searching -/

theorem countQdiscIds_ne_zero (number : Nat → BitVec 32) (v : BitVec 32)
    (root : Qdisc Nat C) :
    countQdiscIds number v root ≠ 0 ↔ ∃ a ∈ root.qdiscs, number a = v := by
  rw [countQdiscIds, countQdiscs_ne_zero, List.any_eq_true]
  simp

theorem one_lt_countQdiscIds (number : Nat → BitVec 32) (v : BitVec 32)
    (root : Qdisc Nat C) :
    1 < countQdiscIds number v root ↔
      ∃ x y, [x, y].Sublist root.branches ∧ (∃ a ∈ x, number a = v) ∧
        ∃ b ∈ y, number b = v := by
  rw [countQdiscIds, countQdiscs_eq_branches, one_lt_countP]
  simp

private theorem nextQdiscId_unused {number : Nat → BitVec 32}
    {root : Qdisc Nat C} {fuel : Nat} {currId id : BitVec 32}
    (h : nextQdiscId number root fuel currId = some id) :
    ∀ a ∈ root.qdiscs, number a ≠ id := by
  induction fuel generalizing currId with
  | zero => simp [nextQdiscId] at h
  | succ fuel ih =>
      rw [nextQdiscId] at h
      split at h
      · exact ih h
      · rename_i hzero
        cases h
        rw [countQdiscIds_ne_zero] at hzero
        intro a ha hid
        exact hzero ⟨a, ha, hid⟩

/-- The search stops at or before any number that is not in use. -/
private theorem nextQdiscId_finds {number : Nat → BitVec 32}
    {root : Qdisc Nat C} {fuel : Nat} {currId : BitVec 32} {n : Nat}
    (hle : currId.toNat ≤ n) (hn : n ≤ 0xffff) (hfuel : n - currId.toNat < fuel)
    (hfree : ∀ a ∈ root.qdiscs, (number a).toNat ≠ n) :
    ∃ id, nextQdiscId number root fuel currId = some id ∧
      currId.toNat ≤ id.toNat ∧ id.toNat ≤ n ∧
      ∀ k, currId.toNat ≤ k → k < id.toNat →
        ∃ a ∈ root.qdiscs, (number a).toNat = k := by
  induction fuel generalizing currId with
  | zero => omega
  | succ fuel ih =>
      rw [nextQdiscId]
      split
      · rename_i hused
        obtain ⟨a, ha, hid⟩ := (countQdiscIds_ne_zero number currId root).mp hused
        have hne : currId.toNat ≠ n := by
          intro heq
          apply hfree a ha
          rw [hid, heq]
        have hsucc : (currId + 1).toNat = currId.toNat + 1 := by
          rw [BitVec.toNat_add]
          simp
          omega
        have hnext : (currId + 1).toNat ≤ n := by omega
        obtain ⟨id, hfound, hlow, hhigh, hbetween⟩ := ih hnext (by omega)
        refine ⟨id, hfound, by omega, hhigh, ?_⟩
        intro k hk hlt
        rcases Nat.eq_or_lt_of_le hk with heq | hgt
        · exact ⟨a, ha, by rw [hid, heq]⟩
        · exact hbetween k (by omega) hlt
      · exact ⟨currId, rfl, Nat.le_refl _, hle, fun k hk hlt => by omega⟩

/-! ## The assignment -/

/-- Where the walk stands with `rest` before it. -/
structure IdProgress (root : Qdisc Nat C) (given : Nat → BitVec 32)
    (rest : List Nat) (s : QdiscIds) : Prop where
  kept : ∀ a ∈ root.qdiscs, given a ≠ undefU32 → s.number a = given a
  waiting : ∀ a ∈ rest, s.number a = given a
  chosen : ∀ a ∈ root.qdiscs, a ∉ rest → given a = undefU32 →
    (1 ≤ (s.number a).toNat ∧ (s.number a).toNat ≤ 0xffff) ∧
      ∀ b ∈ root.qdiscs, b ≠ a → s.number b ≠ s.number a
  checked : ∀ a ∈ root.qdiscs, a ∉ rest → given a ≠ undefU32 →
    (1 ≤ (given a).toNat ∧ (given a).toNat ≤ 0xffff) ∧
      ¬1 < countQdiscIds given (given a) root
  low : 1 ≤ s.currId.toNat ∧ ∀ n, 1 ≤ n → n < s.currId.toNat →
    ∃ a ∈ root.qdiscs, (s.number a).toNat = n
  room : (freeQdiscIds root.qdiscs given).card +
      rest.countP (fun a => given a = undefU32) =
    (freeQdiscIds root.qdiscs s.number).card +
      root.qdiscs.countP fun a => given a = undefU32

private theorem mem_freeQdiscIds {qdiscs : List Nat}
    {number : Nat → BitVec 32} {n : Nat} :
    n ∈ freeQdiscIds qdiscs number ↔
      (1 ≤ n ∧ n ≤ 0xffff) ∧ ∀ a ∈ qdiscs, (number a).toNat ≠ n := by
  simp [freeQdiscIds]

private theorem freeQdiscIds_update {qdiscs : List Nat}
    {number : Nat → BitVec 32} {a : Nat} {id : BitVec 32} (ha : a ∈ qdiscs)
    (hundef : number a = undefU32) :
    freeQdiscIds qdiscs (Function.update number a id) =
      (freeQdiscIds qdiscs number).erase id.toNat := by
  apply Finset.ext
  intro n
  rw [Finset.mem_erase, mem_freeQdiscIds, mem_freeQdiscIds]
  constructor
  · rintro ⟨hrange, hfree⟩
    refine ⟨?_, hrange, ?_⟩
    · have := hfree a ha
      simpa [eq_comm] using this
    · intro b hb
      rcases eq_or_ne b a with rfl | hne
      · rw [hundef]
        simp [undefU32]
        omega
      · have := hfree b hb
        rwa [Function.update_of_ne hne] at this
  · rintro ⟨hne, hrange, hfree⟩
    refine ⟨hrange, ?_⟩
    intro b hb
    rcases eq_or_ne b a with rfl | hba
    · simpa [eq_comm] using hne
    · rw [Function.update_of_ne hba]
      exact hfree b hb

theorem and_not_eq_zero (n : BitVec 32) :
    n &&& ~~~0xffff = 0 ↔ n.toNat ≤ 0xffff := by
  have hhigh := toNat_and_high n (~~~0xffff) (k := 16) rfl
  constructor
  · intro h
    rw [h] at hhigh
    simp at hhigh
    omega
  · intro h
    apply BitVec.eq_of_toNat_eq
    rw [hhigh]
    simp
    omega

private theorem eq_zero_iff (n : BitVec 32) : n = 0 ↔ n.toNat = 0 := by
  rw [← BitVec.toNat_inj]
  rfl

theorem outside_iff (n : BitVec 32) :
    (n = 0 ∨ n &&& ~~~0xffff ≠ 0) ↔ ¬(1 ≤ n.toNat ∧ n.toNat ≤ 0xffff) := by
  rw [ne_eq, and_not_eq_zero, eq_zero_iff]
  omega

section

variable {root : Qdisc Nat C} {given : Nat → BitVec 32} {q : Nat}
  {rest : List Nat} {s : QdiscIds}

namespace IdProgress

/-- What is counted for a given number is what was given. -/
private theorem count_given (h : IdProgress root given (q :: rest) s)
    (hq : q ∈ root.qdiscs) (hgiven : given q ≠ undefU32) :
    countQdiscIds s.number (given q) root =
      countQdiscIds given (given q) root := by
  apply countQdiscs_congr
  intro a ha
  by_cases hrest : a ∈ q :: rest
  · rw [h.waiting a hrest]
  · rcases eq_or_ne (given a) undefU32 with hundef | hne
    · have hunique := (h.chosen a ha hrest hundef).2 q hq (by
        rintro rfl
        exact hgiven hundef)
      rw [h.kept q hq hgiven] at hunique
      simp [hundef, hunique.symm, hgiven.symm]
    · rw [h.kept a ha hne]

/-- The search ends with a valid number if one is left. -/
private theorem next_valid (h : IdProgress root given (q :: rest) s)
    (hfree : (freeQdiscIds root.qdiscs s.number).Nonempty) :
    ∃ id, nextQdiscId s.number root (2 ^ 32) s.currId = some id ∧
      (1 ≤ id.toNat ∧ id.toNat ≤ 0xffff) ∧
      ∀ n, 1 ≤ n → n < id.toNat →
        ∃ a ∈ root.qdiscs, (s.number a).toNat = n := by
  obtain ⟨n, hn⟩ := hfree
  obtain ⟨⟨hpos, hle⟩, hunused⟩ := mem_freeQdiscIds.mp hn
  have hcurr : s.currId.toNat ≤ n := by
    by_contra hlt
    obtain ⟨a, ha, hnum⟩ := h.low.2 n hpos (by omega)
    exact hunused a ha hnum
  have hfuel : n - s.currId.toNat < 2 ^ 32 := by omega
  obtain ⟨id, hfound, hlow, hhigh, hbetween⟩ :=
    nextQdiscId_finds hcurr hle hfuel hunused
  have hone := h.low.1
  refine ⟨id, hfound, ⟨by omega, by omega⟩, ?_⟩
  intro k hk hlt
  rcases Nat.lt_or_ge k s.currId.toNat with hbelow | habove
  · exact h.low.2 k hk hbelow
  · exact hbetween k habove hlt

private theorem next_invalid
    (hfree : ¬(freeQdiscIds root.qdiscs s.number).Nonempty) {id : BitVec 32}
    (hfound : nextQdiscId s.number root (2 ^ 32) s.currId = some id) :
    ¬(1 ≤ id.toNat ∧ id.toNat ≤ 0xffff) := by
  intro hvalid
  apply hfree
  refine ⟨id.toNat, mem_freeQdiscIds.mpr ⟨hvalid, ?_⟩⟩
  intro a ha hnum
  exact nextQdiscId_unused hfound a ha (BitVec.toNat_inj.mp hnum)

private theorem exhausted (h : IdProgress root given (q :: rest) s)
    (hundef : given q = undefU32)
    (hfree : ¬(freeQdiscIds root.qdiscs s.number).Nonempty) :
    QdiscsRejected root given := by
  apply QdiscsRejected.exhausted
  have hroom := h.room
  rw [Finset.not_nonempty_iff_eq_empty] at hfree
  simp only [hfree, Finset.card_empty, List.countP_cons, hundef] at hroom
  simp at hroom
  omega

/-- A number that was given and passes its check stays. -/
private theorem keep (h : IdProgress root given (q :: rest) s)
    (hq : q ∈ root.qdiscs) (hgiven : given q ≠ undefU32)
    (hvalid : 1 ≤ (given q).toNat ∧ (given q).toNat ≤ 0xffff)
    (hcount : ¬1 < countQdiscIds given (given q) root) :
    IdProgress root given rest s where
  kept := h.kept
  waiting a ha := h.waiting a (List.mem_cons_of_mem _ ha)
  chosen a ha hrest hundef := by
    apply h.chosen a ha _ hundef
    intro hmem
    rcases List.mem_cons.mp hmem with rfl | hmem
    · exact hgiven hundef
    · exact hrest hmem
  checked a ha hrest hne := by
    rcases eq_or_ne a q with rfl | haq
    · exact ⟨hvalid, hcount⟩
    · apply h.checked a ha _ hne
      intro hmem
      rcases List.mem_cons.mp hmem with heq | hmem
      · exact haq heq
      · exact hrest hmem
  low := h.low
  room := by
    have hroom := h.room
    rw [List.countP_cons] at hroom
    simpa [hgiven] using hroom

/-- A free number goes to a qdisc without one. -/
private theorem choose (h : IdProgress root given (q :: rest) s)
    (hnodup : (q :: rest).Nodup) (hq : q ∈ root.qdiscs)
    (hundef : given q = undefU32) {id : BitVec 32}
    (hvalid : 1 ≤ id.toNat ∧ id.toNat ≤ 0xffff)
    (hunused : ∀ a ∈ root.qdiscs, s.number a ≠ id)
    (hlow : ∀ n, 1 ≤ n → n < id.toNat →
      ∃ a ∈ root.qdiscs, (s.number a).toNat = n) :
    IdProgress root given rest
      { number := Function.update s.number q id, currId := id } where
  kept a ha hgiven := by
    rcases eq_or_ne a q with rfl | hne
    · exact absurd hundef hgiven
    · rw [← h.kept a ha hgiven]
      exact Function.update_of_ne hne _ _
  waiting a ha := by
    have hne : a ≠ q := by
      rintro rfl
      exact (List.nodup_cons.mp hnodup).1 ha
    rw [← h.waiting a (List.mem_cons_of_mem _ ha)]
    exact Function.update_of_ne hne _ _
  chosen a ha hrest hu := by
    rcases eq_or_ne a q with rfl | hne
    · refine ⟨by simpa using hvalid, ?_⟩
      intro b hb hba
      simpa [Function.update_of_ne hba] using hunused b hb
    · have hmem : a ∉ q :: rest := by
        simp [hne, hrest]
      obtain ⟨hrange, hunique⟩ := h.chosen a ha hmem hu
      refine ⟨by simpa [Function.update_of_ne hne] using hrange, ?_⟩
      intro b hb hba
      rcases eq_or_ne b q with rfl | hbq
      · simpa [Function.update_of_ne hne, eq_comm] using hunused a ha
      · simpa [Function.update_of_ne hne, Function.update_of_ne hbq]
          using hunique b hb hba
  checked a ha hrest hgiven := by
    apply h.checked a ha _ hgiven
    intro hmem
    rcases List.mem_cons.mp hmem with rfl | hmem
    · exact hgiven hundef
    · exact hrest hmem
  low := by
    refine ⟨hvalid.1, ?_⟩
    intro n hn hlt
    obtain ⟨a, ha, hnum⟩ := hlow n hn hlt
    refine ⟨a, ha, ?_⟩
    rcases eq_or_ne a q with rfl | hne
    · rw [h.waiting a (by simp), hundef] at hnum
      simp [undefU32] at hnum
      omega
    · simpa [Function.update_of_ne hne] using hnum
  room := by
    have hroom := h.room
    have hcurrent : s.number q = undefU32 := by
      rw [h.waiting q (by simp), hundef]
    have hmem : id.toNat ∈ freeQdiscIds root.qdiscs s.number := by
      rw [mem_freeQdiscIds]
      refine ⟨hvalid, ?_⟩
      intro a ha hnum
      exact hunused a ha (BitVec.toNat_inj.mp hnum)
    have hpos := Finset.card_pos.mpr ⟨_, hmem⟩
    rw [freeQdiscIds_update hq hcurrent, Finset.card_erase_of_mem hmem]
    rw [List.countP_cons] at hroom
    simp [hundef] at hroom
    omega

end IdProgress

private theorem assignQdiscId_given (h : IdProgress root given (q :: rest) s)
    (hq : q ∈ root.qdiscs) (hgiven : given q ≠ undefU32) :
    Program.wp (assignQdiscId root q) (fun _ => IdProgress root given rest)
      (fun _ _ => QdiscsRejected root given) s := by
  have hkept : s.number q = given q := h.kept q hq hgiven
  simp only [assignQdiscId, chooseQdiscId, Program.wp_bind, Program.wp_get,
    hkept, ne_eq, hgiven, not_false_eq_true, if_true, h.count_given hq hgiven]
  rw [Program.wp_ite]
  constructor
  · intro hcount
    rw [Program.wp_throw]
    obtain ⟨x, y, hsub, hx, hy⟩ := (one_lt_countQdiscIds _ _ _).mp hcount
    exact .repeated (given q) hgiven x y hsub hx hy
  · intro hcount
    rw [Program.wp_pure, hkept, Program.wp_ite, ← ne_eq, outside_iff]
    constructor
    · intro houtside
      rw [Program.wp_throw]
      apply QdiscsRejected.invalid q hq hgiven
      rw [eq_zero_iff]
      omega
    · intro hvalid
      rw [Program.wp_pure]
      exact h.keep hq hgiven (not_not.mp hvalid) hcount

private theorem assignQdiscId_undef (h : IdProgress root given (q :: rest) s)
    (hnodup : (q :: rest).Nodup) (hq : q ∈ root.qdiscs)
    (hundef : given q = undefU32) :
    Program.wp (assignQdiscId root q) (fun _ => IdProgress root given rest)
      (fun _ _ => QdiscsRejected root given) s := by
  have hcurrent : s.number q = undefU32 := by
    rw [h.waiting q (by simp), hundef]
  simp only [assignQdiscId, chooseQdiscId, Program.wp_bind, Program.wp_get,
    hcurrent, ne_eq, not_true_eq_false, if_false]
  by_cases hfree : (freeQdiscIds root.qdiscs s.number).Nonempty
  · obtain ⟨id, hfound, hvalid, hlow⟩ := h.next_valid hfree
    simp only [hfound, Program.wp_modify, Function.update_self]
    rw [Program.wp_ite, ← ne_eq, outside_iff]
    refine ⟨fun houtside => absurd hvalid houtside, fun _ => ?_⟩
    rw [Program.wp_pure]
    exact h.choose hnodup hq hundef hvalid (nextQdiscId_unused hfound) hlow
  · have hrejected := h.exhausted hundef hfree
    cases hfound : nextQdiscId s.number root (2 ^ 32) s.currId with
    | none => exact hrejected
    | some id =>
        rw [Program.wp_modify]
        simp only [Function.update_self]
        rw [Program.wp_ite, ← ne_eq, outside_iff]
        refine ⟨fun _ => hrejected, fun hvalid => ?_⟩
        exact absurd (not_not.mp hvalid) (IdProgress.next_invalid hfree hfound)

/-- One step of the walk. -/
private theorem assignQdiscId_progress
    (h : IdProgress root given (q :: rest) s) (hnodup : (q :: rest).Nodup)
    (hq : q ∈ root.qdiscs) :
    Program.wp (assignQdiscId root q) (fun _ => IdProgress root given rest)
      (fun _ _ => QdiscsRejected root given) s := by
  rcases eq_or_ne (given q) undefU32 with hundef | hgiven
  · exact assignQdiscId_undef h hnodup hq hundef
  · exact assignQdiscId_given h hq hgiven

end

/-- The whole walk. -/
private theorem visit_progress {root : Qdisc Nat C} {given : Nat → BitVec 32}
    {rest : List Nat} {s : QdiscIds} (h : IdProgress root given rest s)
    (hnodup : rest.Nodup) (hsub : ∀ a ∈ rest, a ∈ root.qdiscs) :
    Program.wp (visit (assignQdiscId root) rest)
      (fun _ => IdProgress root given [])
      (fun _ _ => QdiscsRejected root given) s := by
  induction rest generalizing s with
  | nil => exact h
  | cons q rest ih =>
      rw [visit, Program.wp_bind]
      apply Program.wp_mono (assignQdiscId_progress h hnodup (hsub q (by simp)))
      · intro _ s' hs'
        apply ih hs' (List.nodup_cons.mp hnodup).2
        intro a ha
        exact hsub a (List.mem_cons_of_mem _ ha)
      · exact fun _ _ hrejected => hrejected

private theorem assignQdiscIds_progress (tree : QdiscTree C)
    (given : Nat → BitVec 32) (currId : BitVec 32) :
    Program.wp (assignQdiscIds tree.root)
      (fun _ => IdProgress tree.root given [])
      (fun _ _ => QdiscsRejected tree.root given) ⟨given, currId⟩ := by
  simp only [assignQdiscIds, Program.wp_bind, Program.wp_modify,
    Program.wp_pure]
  rw [recurseQdisc_visits]
  apply visit_progress _ tree.distinct (fun _ ha => ha)
  constructor
  case kept => exact fun _ _ _ => rfl
  case waiting => exact fun _ _ => rfl
  case chosen => exact fun a ha hrest => absurd ha hrest
  case checked => exact fun a ha hrest => absurd ha hrest
  case low =>
    refine ⟨by simp, ?_⟩
    intro n hn hlt
    simp at hlt
    omega
  case room => rfl

/-- A walk that ends without a message has rejected nothing. -/
private theorem IdProgress.not_rejected {root : Qdisc Nat C}
    {given : Nat → BitVec 32} {s : QdiscIds}
    (h : IdProgress root given [] s) : ¬QdiscsRejected root given := by
  intro hrejected
  cases hrejected with
  | invalid a member isGiven outside =>
      have hvalid := (h.checked a member (by simp) isGiven).1
      rcases outside with hzero | hlarge
      · rw [hzero] at hvalid
        simp at hvalid
      · omega
  | repeated v isGiven x y branches left right =>
      obtain ⟨a, ha, rfl⟩ := left
      have hmem : a ∈ root.qdiscs :=
        root.branches_subset x (branches.subset (by simp)) ha
      apply (h.checked a hmem (by simp) isGiven).2
      exact (one_lt_countQdiscIds _ _ _).mpr
        ⟨x, y, branches, ⟨a, ha, rfl⟩, right⟩
  | exhausted few =>
      have hroom := h.room
      simp at hroom
      omega

private theorem IdProgress.numbered {tree : QdiscTree C}
    {given : Nat → BitVec 32} {s : QdiscIds}
    (h : IdProgress tree.root given [] s)
    (hgiven : GivenDistinct tree.root.qdiscs given) :
    QdiscsNumbered tree.root.qdiscs given s.number where
  distinct := by
    have hpairs := tree.distinct.and hgiven
    apply hpairs.imp_of_mem
    intro a b ha hb ⟨hne, hab⟩
    rcases eq_or_ne (given a) undefU32 with hundef | hisGiven
    · exact ((h.chosen a ha (by simp) hundef).2 b hb hne.symm).symm
    · rcases eq_or_ne (given b) undefU32 with hundef | hisGiven'
      · exact (h.chosen b hb (by simp) hundef).2 a ha hne
      · rw [h.kept a ha hisGiven, h.kept b hb hisGiven']
        exact hab hisGiven
  valid a ha := by
    rcases eq_or_ne (given a) undefU32 with hundef | hisGiven
    · exact (h.chosen a ha (by simp) hundef).1
    · rw [h.kept a ha hisGiven]
      exact (h.checked a ha (by simp) hisGiven).1
  kept a ha hisGiven := h.kept a ha hisGiven

/-- The assignment keeps its promise exactly if no number is given twice, or
if a message ends it. -/
theorem assignQdiscIds_numbered_iff (tree : QdiscTree C)
    (given : Nat → BitVec 32) (currId : BitVec 32) :
    (∀ s, assignQdiscIds tree.root ⟨given, currId⟩ = (.ok (), s) →
      QdiscsNumbered tree.root.qdiscs given s.number) ↔
      GivenDistinct tree.root.qdiscs given ∨
        QdiscsRejected tree.root given := by
  have hwalk := assignQdiscIds_progress tree given currId
  constructor
  · intro hpromise
    cases hrun : assignQdiscIds tree.root ⟨given, currId⟩ with
    | mk result s =>
        cases result with
        | error e =>
            right
            apply Program.wp_error (E := fun _ _ => QdiscsRejected _ _) hrun
            exact hwalk
        | ok u =>
            have hnumbered := hpromise s hrun
            left
            apply hnumbered.distinct.imp_of_mem
            intro a b ha hb hne hisGiven heq
            apply hne
            rw [hnumbered.kept a ha hisGiven, heq,
              hnumbered.kept b hb (heq ▸ hisGiven)]
  · rintro (hgiven | hrejected) s hrun
    · exact (Program.wp_ok hrun hwalk).numbered hgiven
    · exact absurd hrejected (Program.wp_ok hrun hwalk).not_rejected

/-- A qdisc below a class of a qdisc below a class of the root. -/
def nestedQdiscs : QdiscTree Unit where
  root := .qdisc 0 (.class () (.qdisc 1 (.class () (.qdisc 2 .null) .null
    .null)) .null .null)
  distinct := by decide

/-- The two inner qdiscs are both number 5, and only one of them is seen from
the root. -/
theorem nestedQdiscs_repeated :
    (assignQdiscIds nestedQdiscs.root
        ⟨fun a => if a = 0 then 1 else 5, 0⟩).1 = .ok () ∧
      ¬QdiscsNumbered nestedQdiscs.root.qdiscs
        (fun a => if a = 0 then 1 else 5)
        (assignQdiscIds nestedQdiscs.root
          ⟨fun a => if a = 0 then 1 else 5, 0⟩).2.number := by
  refine ⟨rfl, ?_⟩
  intro h
  have hpair := h.distinct
  have hne := List.rel_of_pairwise_cons (List.pairwise_cons.mp hpair).2
    (List.mem_singleton.mpr rfl)
  exact hne rfl

end Tcng
