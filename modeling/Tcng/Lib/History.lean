import Mathlib.Data.List.Induction
import Mathlib.Data.List.Nodup

/-! Lists of which each entry is judged by those in front of it, and walks
that go through such a list and stop at an entry they cannot take. -/

namespace Tcng.History

variable {α σ ε : Type}

/-- Each entry is right after the ones before it. -/
def Each (P : List α → α → Prop) (xs : List α) : Prop :=
  ∀ before x after, xs = before ++ x :: after → P before x

variable {P Q : List α → α → Prop}

@[simp] theorem each_nil : Each P [] := by
  intro before x after hsplit
  simp at hsplit

theorem each_cons (x : α) (xs : List α) :
    Each P (x :: xs) ↔ P [] x ∧ Each (fun before => P (x :: before)) xs := by
  constructor
  · intro h
    exact ⟨h [] x xs rfl, fun before y after hsplit =>
      h (x :: before) y after (congrArg (x :: ·) hsplit)⟩
  · rintro ⟨hx, hxs⟩ before y after hsplit
    cases before with
    | nil =>
        obtain ⟨rfl, _⟩ := List.cons.inj hsplit
        exact hx
    | cons z before =>
        obtain ⟨rfl, hrest⟩ := List.cons.inj hsplit
        exact hxs before y after hrest

theorem each_append (xs ys : List α) :
    Each P (xs ++ ys) ↔ Each P xs ∧ Each (fun before => P (xs ++ before)) ys := by
  induction xs generalizing P with
  | nil => simp
  | cons x xs ih =>
      rw [List.cons_append, each_cons, each_cons, ih, and_assoc]
      rfl

theorem each_concat (xs : List α) (x : α) :
    Each P (xs ++ [x]) ↔ Each P xs ∧ P xs x := by
  rw [each_append, each_cons]
  simp

theorem Each.mono {xs : List α} (h : Each P xs)
    (himp : ∀ before x, P before x → Q before x) : Each Q xs :=
  fun before x after hsplit => himp before x (h before x after hsplit)

theorem each_congr {xs : List α}
    (hiff : ∀ before, ∀ x ∈ xs, P before x ↔ Q before x) :
    Each P xs ↔ Each Q xs := by
  constructor
  · intro h before x after hsplit
    exact (hiff before x (by simp [hsplit])).mp (h before x after hsplit)
  · intro h before x after hsplit
    exact (hiff before x (by simp [hsplit])).mpr (h before x after hsplit)

/-- Of two entries, the second one is the same or comes after the first one or
before it. -/
theorem split_cases {before x after} {before' x'} {after' : List α}
    (hsplit : before ++ x :: after = before' ++ x' :: after') :
    (∃ between, before' = before ++ x :: between) ∨
    (before = before' ∧ x = x') ∨
    ∃ between, before = before' ++ x' :: between := by
  rcases List.append_eq_append_iff.mp hsplit with
    ⟨between, rfl, hrest⟩ | ⟨between, rfl, hrest⟩
  · cases between with
    | nil =>
        obtain ⟨rfl, _⟩ := List.cons.inj hrest
        exact .inr (.inl ⟨(List.append_nil _).symm, rfl⟩)
    | cons y between =>
        obtain ⟨rfl, _⟩ := List.cons.inj hrest
        exact .inl ⟨between, rfl⟩
  · cases between with
    | nil =>
        obtain ⟨rfl, _⟩ := List.cons.inj hrest
        exact .inr (.inl ⟨List.append_nil _, rfl⟩)
    | cons y between =>
        obtain ⟨rfl, _⟩ := List.cons.inj hrest
        exact .inr (.inr ⟨between, rfl⟩)

/-! ## Walks -/

/-- A walk over `xs` after `before`: it either took all of them, or stopped at
one that it could not take. -/
def Went (R : List α → σ → Prop) (Stuck : List α → α → ε → Prop)
    (before xs : List α) : Except ε σ → Prop
  | .ok s => R (before ++ xs) s
  | .error e => ∃ front x rest, xs = front ++ x :: rest ∧
      Stuck (before ++ front) x e

section

variable {R : List α → σ → Prop} {Stuck : List α → α → ε → Prop}
  {before xs ys : List α}

theorem went_nil {s : σ} (h : R before s) :
    Went R Stuck before [] (.ok s) := by
  rw [Went, List.append_nil]
  exact h

theorem Went.stop {e : ε} (h : Went R Stuck before xs (.error e)) :
    Went R Stuck before (xs ++ ys) (.error e) := by
  obtain ⟨front, x, rest, rfl, hstuck⟩ := h
  exact ⟨front, x, rest ++ ys, by simp, hstuck⟩

theorem Went.bind {r : Except ε σ} {f : σ → Except ε σ}
    (hr : Went R Stuck before xs r)
    (hf : ∀ s, R (before ++ xs) s → Went R Stuck (before ++ xs) ys (f s)) :
    Went R Stuck before (xs ++ ys) (r >>= f) := by
  cases r with
  | error e => exact hr.stop
  | ok s =>
      have hafter := hf s hr
      show Went R Stuck before (xs ++ ys) (f s)
      cases hfs : f s with
      | ok s' =>
          rw [hfs, Went, List.append_assoc] at hafter
          exact hafter
      | error e =>
          rw [hfs] at hafter
          obtain ⟨front, x, rest, rfl, hstuck⟩ := hafter
          rw [List.append_assoc] at hstuck
          exact ⟨xs ++ front, x, rest, by simp, hstuck⟩

end

/-! ## Entries that are only kept once -/

section

variable [DecidableEq α]

/-- What a list has that only grows by entries it does not have. -/
def keepNew (kept xs : List α) : List α :=
  xs.foldl (fun kept x => if x ∈ kept then kept else kept ++ [x]) kept

theorem keepNew_concat (kept xs : List α) (x : α) :
    keepNew kept (xs ++ [x]) =
      if x ∈ keepNew kept xs then keepNew kept xs
      else keepNew kept xs ++ [x] := by
  rw [keepNew, List.foldl_append]
  rfl

theorem mem_keepNew {xs : List α} {x : α} : x ∈ keepNew [] xs ↔ x ∈ xs := by
  induction xs using List.reverseRecOn with
  | nil => simp [keepNew]
  | append_singleton xs y ih =>
      rw [keepNew_concat, List.mem_append, List.mem_singleton, ← ih]
      split
      · next hy => exact ⟨.inl, fun h => h.elim id (· ▸ hy)⟩
      · rw [List.mem_append, List.mem_singleton]

theorem nodup_keepNew (xs : List α) : (keepNew [] xs).Nodup := by
  induction xs using List.reverseRecOn with
  | nil => simp [keepNew]
  | append_singleton xs y ih =>
      rw [keepNew_concat]
      split
      · exact ih
      · next hy =>
          rw [List.nodup_append]
          exact ⟨ih, List.nodup_singleton y, fun a ha b hb hab =>
            hy (List.mem_singleton.mp hb ▸ hab ▸ ha)⟩

/-- Where only the entries in front matter, and more of them do not harm, what
is left out makes no difference. -/
theorem each_keepNew
    (hmono : ∀ {before before' x}, before ⊆ before' →
      P before x → P before' x) (xs : List α) :
    Each P (keepNew [] xs) ↔ Each P xs := by
  have hsame : ∀ xs : List α, keepNew [] xs ⊆ xs ∧ xs ⊆ keepNew [] xs :=
    fun xs => ⟨fun _ => mem_keepNew.mp, fun _ => mem_keepNew.mpr⟩
  induction xs using List.reverseRecOn with
  | nil => simp [keepNew]
  | append_singleton xs y ih =>
      rw [keepNew_concat, each_concat]
      split
      · next hy =>
          refine ⟨fun h => ⟨ih.mp h, ?_⟩, fun h => ih.mpr h.1⟩
          obtain ⟨before, after, hsplit⟩ :=
            List.append_of_mem (mem_keepNew.mp hy)
          refine hmono ?_ (ih.mp h before y after hsplit)
          rw [hsplit]
          exact List.subset_append_left _ _
      · rw [each_concat]
        exact and_congr ih ⟨hmono (hsame xs).1, hmono (hsame xs).2⟩

end

end Tcng.History
