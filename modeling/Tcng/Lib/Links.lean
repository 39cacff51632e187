import Mathlib.Data.List.Nodup

/-! Linked lists that are changed through pointers to links: a link is the
pointer to the first node, or the one a node has to its successor. -/

/-- What each link holds; the one in front of all nodes is `none`. -/
def Links (α : Type) : Type := Option α → Option α

namespace Links

variable {α : Type} {links links' : Links α} {link link' : Option α}
  {x : α} {xs ys : List α}

/-- The nodes that are passed first from a link. -/
def Path (links : Links α) : Option α → List α → Prop
  | _, [] => True
  | link, x :: xs => links link = some x ∧ links.Path (some x) xs

/-- All nodes behind a link. -/
def Chain (links : Links α) : Option α → List α → Prop
  | link, [] => links link = none
  | link, x :: xs => links link = some x ∧ links.Chain (some x) xs

/-- The link behind some nodes. -/
def lastLink : Option α → List α → Option α
  | link, [] => link
  | _, x :: xs => lastLink (some x) xs

/-- The links of a list. -/
def ofList [DecidableEq α] (xs : List α) : Links α
  | none => xs.head?
  | some x => (xs.dropWhile (· ≠ x)).tail.head?

@[simp] theorem chain_nil : links.Chain link [] ↔ links link = none := Iff.rfl

@[simp] theorem chain_cons :
    links.Chain link (x :: xs) ↔
      links link = some x ∧ links.Chain (some x) xs := Iff.rfl

@[simp] theorem path_nil : links.Path link [] := trivial

@[simp] theorem path_cons :
    links.Path link (x :: xs) ↔
      links link = some x ∧ links.Path (some x) xs := Iff.rfl

theorem lastLink_mem (link : Option α) (xs : List α) :
    lastLink link xs ∈ link :: xs.map some := by
  induction xs generalizing link with
  | nil => simp [lastLink]
  | cons x xs ih => exact List.mem_cons_of_mem _ (ih (some x))

theorem lastLink_append (link : Option α) (xs : List α) (x : α) :
    lastLink link (xs ++ [x]) = some x := by
  induction xs generalizing link with
  | nil => rfl
  | cons y xs ih => exact ih (some y)

theorem chain_append :
    links.Chain link (xs ++ ys) ↔
      links.Path link xs ∧ links.Chain (lastLink link xs) ys := by
  induction xs generalizing link with
  | nil => simp [lastLink]
  | cons x xs ih =>
      rw [List.cons_append, chain_cons, path_cons, ih, and_assoc]
      rfl

theorem path_append :
    links.Path link (xs ++ ys) ↔
      links.Path link xs ∧ links.Path (lastLink link xs) ys := by
  induction xs generalizing link with
  | nil => simp [lastLink]
  | cons x xs ih =>
      rw [List.cons_append, path_cons, path_cons, ih, and_assoc]
      rfl

/-- A link leads to one list only. -/
theorem Chain.unique (h : links.Chain link xs) (h' : links.Chain link ys) :
    xs = ys := by
  induction xs generalizing link ys with
  | nil =>
      cases ys with
      | nil => rfl
      | cons y ys => cases (chain_nil.mp h).symm.trans h'.1
  | cons x xs ih =>
      cases ys with
      | nil => cases (chain_nil.mp h').symm.trans h.1
      | cons y ys =>
          obtain rfl : x = y := Option.some.inj (h.1.symm.trans h'.1)
          rw [ih h.2 h'.2]

/-- A list that ends passes no node twice. -/
theorem Chain.nodup (h : links.Chain link xs) : xs.Nodup := by
  induction xs generalizing link with
  | nil => exact List.nodup_nil
  | cons x xs ih =>
      refine List.nodup_cons.mpr ⟨?_, ih h.2⟩
      intro hmem
      obtain ⟨before, after, rfl⟩ := List.append_of_mem hmem
      have hafter : links.Chain (some x) after := (chain_append.mp h.2).2.2
      have hlength := congrArg List.length (h.2.unique hafter)
      simp only [List.length_append, List.length_cons] at hlength
      omega

/-- A list hung up at another link. -/
theorem Chain.moved (h : links.Chain link xs) (hlink : links' link' = links link)
    (hxs : ∀ x ∈ xs, links' (some x) = links (some x)) :
    links'.Chain link' xs := by
  induction xs generalizing link link' with
  | nil => exact hlink.trans h
  | cons x xs ih =>
      refine ⟨hlink.trans h.1, ih h.2 (hxs x (by simp)) ?_⟩
      intro y hy
      exact hxs y (List.mem_cons_of_mem _ hy)

section

variable [DecidableEq α]

/-- Storing a pointer in a link. -/
def set (links : Links α) (link next : Option α) : Links α :=
  fun other => if other = link then next else links other

@[simp] theorem set_self (next : Option α) : links.set link next link = next := by
  simp [set]

theorem set_of_ne (hne : link' ≠ link) (next : Option α) :
    links.set link next link' = links link' := by
  simp [set, hne]

theorem Path.set (h : links.Path link xs)
    (hfresh : link' ∉ link :: xs.map some) (next : Option α) :
    (links.set link' next).Path link xs := by
  induction xs generalizing link with
  | nil => exact path_nil
  | cons x xs ih =>
      rw [List.map_cons, List.mem_cons, not_or] at hfresh
      refine ⟨?_, ih h.2 hfresh.2⟩
      rw [set_of_ne (Ne.symm hfresh.1)]
      exact h.1

/-- The nodes passed do not depend on the link behind them. -/
theorem Path.set_last (h : links.Path link xs)
    (hnodup : (link :: xs.map some).Nodup) (next : Option α) :
    (links.set (lastLink link xs) next).Path link xs := by
  induction xs generalizing link with
  | nil => exact path_nil
  | cons x xs ih =>
      rw [List.map_cons, List.nodup_cons] at hnodup
      refine ⟨?_, ih h.2 hnodup.2⟩
      have hne : link ≠ lastLink link (x :: xs) := by
        intro heq
        apply hnodup.1
        rw [heq]
        exact lastLink_mem (some x) xs
      rw [set_of_ne hne]
      exact h.1

end

end Links
