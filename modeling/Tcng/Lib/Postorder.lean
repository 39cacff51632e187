import Tcng.Lib.History

/-! Walks through a graph whose edges lead to smaller numbers, in which a node
comes after its successors. -/

namespace Tcng.Postorder

open History

variable {successors : Nat → List Nat}

/-- The nodes in the order a recursive walk from `n` leaves them. -/
def postorder (successors : Nat → List Nat) : Nat → Nat → List Nat
  | 0, _ => []
  | fuel + 1, n =>
      (successors n).flatMap (postorder successors fuel) ++ [n]

/-- Each node comes after its successors. -/
def Ordered (successors : Nat → List Nat) (xs : List Nat) : Prop :=
  Each (fun before n => successors n ⊆ before) xs

theorem Ordered.append {xs ys : List Nat} (hxs : Ordered successors xs)
    (hys : Ordered successors ys) : Ordered successors (xs ++ ys) := by
  refine (each_append xs ys).mpr ⟨hxs, hys.mono ?_⟩
  intro before n hsub
  exact List.subset_append_of_subset_right xs hsub

theorem Ordered.flatMap {f : Nat → List Nat} {ns : List Nat}
    (h : ∀ n ∈ ns, Ordered successors (f n)) :
    Ordered successors (ns.flatMap f) := by
  induction ns with
  | nil => exact each_nil
  | cons n ns ih =>
      have hrest := ih fun m hm => h m (List.mem_cons_of_mem n hm)
      exact (h n List.mem_cons_self).append hrest

/-- Leaving out what comes again does not change the order. -/
theorem Ordered.keepNew {xs : List Nat} (h : Ordered successors xs) :
    Ordered successors (keepNew [] xs) := by
  refine (each_keepNew ?_ xs).mpr h
  intro before before' n hsub hn
  exact List.Subset.trans hn hsub

theorem mem_postorder {fuel n : Nat} (h : n < fuel) :
    n ∈ postorder successors fuel n := by
  cases fuel with
  | zero => cases h
  | succ fuel =>
      rw [postorder]
      exact List.mem_append_right _ (List.mem_singleton_self n)

theorem postorder_ordered
    (hdescend : ∀ n, ∀ m ∈ successors n, m < n) {fuel n : Nat}
    (h : n < fuel) : Ordered successors (postorder successors fuel n) := by
  induction fuel generalizing n with
  | zero => cases h
  | succ fuel ih =>
      have hlt : ∀ m ∈ successors n, m < fuel := fun m hm =>
        Nat.lt_of_lt_of_le (hdescend n m hm) (Nat.le_of_lt_succ h)
      rw [postorder, Ordered, each_concat]
      constructor
      · exact Ordered.flatMap fun m hm => ih (hlt m hm)
      · intro m hm
        exact List.mem_flatMap.mpr ⟨m, hm, mem_postorder (hlt m hm)⟩

variable {σ : Type} {f : σ → Nat → Option σ}

end Tcng.Postorder
