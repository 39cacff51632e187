import Mathlib.Data.List.Perm.Subperm
import Tcng.Iflib.ActionLinks

/-! How `write_actions` numbers the actions. -/

namespace Tcng

/-! ## Looking for the next number -/

/-- What is left of a table for the indices from `index` on. -/
structure Remaining (table : List Nat) (index : Nat) (rest : List Nat) :
    Prop where
  sorted : rest.Pairwise (· < ·)
  sub : rest ⊆ table
  behind : ∀ n ∈ table, n ∉ rest → n < index
  tail : ∀ n ∈ rest.tail, index ≤ n

theorem numberAvailableFast_spec {table rest : List Nat} {index : Nat}
    (h : Remaining table index rest) :
    Remaining table (index + 1) (numberAvailableFast index rest).2 ∧
      ((numberAvailableFast index rest).1 = true ↔ index ∉ table) := by
  -- once the pointer has moved, nothing behind the index is left
  have hmoved : ∀ left : List Nat, left.Pairwise (· < ·) → left ⊆ table →
      (∀ n ∈ table, n ∉ left → n < index) → (∀ n ∈ left, index ≤ n) →
      Remaining table (index + 1) left ∧
        ((left.head? != some index) = true ↔ index ∉ table) := by
    intro left hsorted hsub hbehind hahead
    constructor
    · refine ⟨hsorted, hsub, ?_, ?_⟩
      · intro n hn hnot
        exact Nat.lt_succ_of_lt (hbehind n hn hnot)
      · intro n hn
        cases left with
        | nil => cases hn
        | cons m left =>
            have hm := hahead m List.mem_cons_self
            exact Nat.lt_of_le_of_lt hm ((List.pairwise_cons.mp hsorted).1 n hn)
    · rw [bne_iff_ne]
      constructor
      · intro hhead hmem
        have hleft : index ∈ left := by
          apply Classical.byContradiction
          intro hnot
          exact Nat.lt_irrefl index (hbehind index hmem hnot)
        cases left with
        | nil => cases hleft
        | cons m left =>
            rcases List.mem_cons.mp hleft with rfl | hleft
            · exact hhead rfl
            · have hlt := (List.pairwise_cons.mp hsorted).1 index hleft
              have hle := hahead m List.mem_cons_self
              omega
      · intro hnot hhead
        exact hnot (hsub (List.mem_of_mem_head? hhead))
  cases rest with
  | nil =>
      exact hmoved [] .nil (List.nil_subset _) h.behind (by simp)
  | cons m rest =>
      have hpairs := List.pairwise_cons.mp h.sorted
      simp only [numberAvailableFast]
      split
      · next hlt =>
          apply hmoved rest hpairs.2 (List.Subset.trans (List.subset_cons_self m rest) h.sub)
          · intro n hn hnot
            rcases Nat.lt_or_ge n index with hlt | hge
            · exact hlt
            · apply h.behind n hn
              intro hmem
              rcases List.mem_cons.mp hmem with rfl | hmem
              · omega
              · exact hnot hmem
          · exact h.tail
      · next hge =>
          apply hmoved (m :: rest) h.sorted h.sub h.behind
          intro n hn
          rcases List.mem_cons.mp hn with rfl | hn
          · omega
          · have hlt := hpairs.1 n hn
            omega

/-- All indices that are passed over are in the table. -/
theorem nextAvailable_spec {table rest : List Nat} {index : Nat}
    (h : Remaining table index rest) :
    (nextAvailable index rest).1 ∉ table ∧
      index ≤ (nextAvailable index rest).1 ∧
      (∀ n, index ≤ n → n < (nextAvailable index rest).1 → n ∈ table) ∧
      Remaining table ((nextAvailable index rest).1 + 1)
        (nextAvailable index rest).2 := by
  induction index, rest using nextAvailable.induct with
  | case1 index rest available havailable =>
      obtain ⟨hrest, hfree⟩ := numberAvailableFast_spec h
      rw [nextAvailable, if_pos havailable]
      refine ⟨hfree.mp havailable, Nat.le_refl index, ?_, hrest⟩
      intro n hle hlt
      exact absurd hlt (Nat.not_lt.mpr hle)
  | case2 index rest available htaken ih =>
      obtain ⟨hrest, hfree⟩ := numberAvailableFast_spec h
      obtain ⟨hnot, hle, hpassed, hnext⟩ := ih hrest
      rw [nextAvailable, if_neg htaken]
      refine ⟨hnot, Nat.le_of_succ_le hle, ?_, hnext⟩
      intro n hn hlt
      rcases Nat.eq_or_lt_of_le hn with rfl | hn
      · exact Classical.not_not.mp fun hnot => htaken (hfree.mpr hnot)
      · exact hpassed n hn hlt

/-! ## The two rounds -/

/-- No two actions have the same number. -/
def Distinct (number : Nat → Option Nat) : Prop :=
  ∀ i j n, number i = some n → number j = some n → i = j

theorem Distinct.update {number : Nat → Option Nat} (h : Distinct number)
    {n : Nat} (hfree : ∀ i, number i ≠ some n) (id : Nat) :
    Distinct (Function.update number id (some n)) := by
  intro i j m hi hj
  rw [Function.update_apply] at hi hj
  split at hi
  · next heq =>
      split at hj
      · next heq' => exact heq.trans heq'.symm
      · cases hi
        exact absurd hj (hfree j)
  · split at hj
    · cases hj
      exact absurd hi (hfree i)
    · exact h i j m hi hj

/-- The first round, for the actions below `bound`. -/
structure Preferring (bound : Nat) (s : ActionIndices) : Prop where
  start : s.index = 0
  distinct : Distinct s.number
  listed : ∀ {i n}, s.number i = some n → n ∈ s.preferredTable
  used : ∀ n ∈ s.preferredTable, n < 256 ∧ ∃ i < bound, s.number i = some n
  nodup : s.preferredTable.Nodup

/-- The second round, with the sorted table, when the actions of `xs` have been
left. -/
structure Numbering (bound : Nat) (table xs : List Nat) (s : ActionIndices) :
    Prop where
  distinct : Distinct s.number
  remaining : Remaining table s.index s.preferredTable
  all : ∀ i ∈ xs, ∃ n, s.number i = some n
  listed : ∀ {i n}, s.number i = some n → n ∈ table ∨ n < s.index
  used : ∀ n, n ∈ table ∨ n < s.index → ∃ i < bound, s.number i = some n

section

variable (numbers : ObjectNumbers) {bound : Nat} {s : ActionIndices}

theorem Preferring.assignIndex (h : Preferring bound s) {id : Nat}
    (hid : id < bound) (node : ActionNode) :
    Preferring bound (assignIndex numbers true id node s) := by
  simp only [Tcng.assignIndex, Bool.or_true, if_true]
  split
  · next c htype =>
      split
      · next hcond =>
          simp only [Bool.and_true, Bool.and_eq_true, Option.isNone_iff_eq_none,
            numberAvailableSlow, Bool.not_eq_true', List.contains_eq_mem,
            decide_eq_false_iff_not] at hcond
          obtain ⟨hnone, hfree⟩ := hcond
          have hlow : (numbers.cls c &&& 0xff).toNat < 256 := by
            rw [BitVec.toNat_and]
            exact Nat.lt_of_le_of_lt Nat.and_le_right (by decide)
          constructor
          · exact h.start
          · exact h.distinct.update (fun i hi => hfree (h.listed hi)) id
          · intro i n hi
            dsimp only at hi
            rw [Function.update_apply] at hi
            split at hi
            · cases hi
              simp
            · exact List.mem_append_left _ (h.listed hi)
          · intro n hn
            rcases List.mem_append.mp hn with hn | hn
            · obtain ⟨hlt, i, hi, hnumber⟩ := h.used n hn
              refine ⟨hlt, i, hi, ?_⟩
              dsimp only
              rw [Function.update_of_ne]
              · exact hnumber
              · rintro rfl
                rw [hnone] at hnumber
                cases hnumber
            · rw [List.mem_singleton] at hn
              subst hn
              exact ⟨hlow, id, hid, Function.update_self ..⟩
          · rw [← List.concat_eq_append]
            exact h.nodup.concat hfree
      · exact h
  · exact h

theorem Numbering.assignIndex {table xs : List Nat}
    (h : Numbering bound table xs s) {id : Nat} (hid : id < bound)
    (node : ActionNode) :
    Numbering bound table (xs ++ [id]) (assignIndex numbers false id node s) := by
  have hclass : Tcng.assignIndex numbers false id node s =
      if (s.number id).isSome then s
      else
        ⟨Function.update s.number id
          (some (nextAvailable s.index s.preferredTable).1),
          (nextAvailable s.index s.preferredTable).2,
          (nextAvailable s.index s.preferredTable).1 + 1⟩ := by
    simp only [Tcng.assignIndex, Bool.and_false, Bool.false_and, Bool.or_false,
      Bool.false_eq_true, if_false]
    split <;> rfl
  rw [hclass]
  split
  · next hsome =>
      refine ⟨h.distinct, h.remaining, ?_, h.listed, h.used⟩
      intro i hi
      rcases List.mem_append.mp hi with hi | hi
      · exact h.all i hi
      · rw [List.mem_singleton] at hi
        exact hi ▸ Option.isSome_iff_exists.mp hsome
  · next hnone =>
      have hnone := Option.not_isSome_iff_eq_none.mp hnone
      obtain ⟨hnot, hle, hpassed, hrest⟩ := nextAvailable_spec h.remaining
      generalize nextAvailable s.index s.preferredTable = next at *
      constructor
      · apply h.distinct.update
        intro i hi
        rcases h.listed hi with hmem | hlt
        · exact hnot hmem
        · omega
      · exact hrest
      · intro i hi
        dsimp only
        rw [Function.update_apply]
        split
        · exact ⟨_, rfl⟩
        · next hne =>
            rcases List.mem_append.mp hi with hi | hi
            · exact h.all i hi
            · exact absurd (List.mem_singleton.mp hi) hne
      · intro i n hi
        dsimp only at hi
        rw [Function.update_apply] at hi
        split at hi
        · cases hi
          exact .inr (Nat.lt_succ_self _)
        · rcases h.listed hi with hmem | hlt
          · exact .inl hmem
          · exact .inr (by simp only; omega)
      · intro n hn
        by_cases heq : n = next.1
        · exact ⟨id, hid, by simp [heq]⟩
        · have hold : n ∈ table ∨ n < s.index := by
            rcases hn with hmem | hlt
            · exact .inl hmem
            · simp only at hlt
              rcases Nat.lt_or_ge n s.index with hlt' | hge
              · exact .inr hlt'
              · exact .inl (hpassed n hge (by omega))
          obtain ⟨i, hi, hnumber⟩ := h.used n hold
          refine ⟨i, hi, ?_⟩
          dsimp only
          rw [Function.update_of_ne]
          · exact hnumber
          · rintro rfl
            rw [hnone] at hnumber
            cases hnumber

end

/-! ## All numbers -/

/-- Each action in the order has a number of its own, and the numbers are
small. -/
structure Numbered (db : ActionDb) (number : Nat → Option Nat) : Prop where
  all : ∀ id ∈ db.order, ∃ n, number id = some n
  distinct : Distinct number
  small : ∀ {id n}, number id = some n → n < max 256 db.nodes.length

end Tcng
