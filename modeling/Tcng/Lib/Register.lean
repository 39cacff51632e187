import Mathlib.Data.List.Nodup

/-! A register numbers values in the order of their first entry. -/

structure Register (α : Type u) where
  entries : List α
  nodup : entries.Nodup

namespace Register

variable {α : Type u}

def empty : Register α := ⟨[], List.nodup_nil⟩

def get? (r : Register α) (i : Nat) : Option α := r.entries[i]?

def size (r : Register α) : Nat := r.entries.length

theorem get?_lt {r : Register α} {i : Nat} {a : α} (h : r.get? i = some a) :
    i < r.size :=
  (List.getElem?_eq_some_iff.mp h).1

theorem get?_inj {r : Register α} {i j : Nat} {a : α} (hi : r.get? i = some a)
    (hj : r.get? j = some a) : i = j := by
  obtain ⟨hilt, hi⟩ := List.getElem?_eq_some_iff.mp hi
  obtain ⟨hjlt, hj⟩ := List.getElem?_eq_some_iff.mp hj
  exact (List.Nodup.getElem_inj_iff r.nodup).mp (hi.trans hj.symm)

theorem mem_iff {r : Register α} {a : α} :
    a ∈ r.entries ↔ ∃ i, r.get? i = some a := List.mem_iff_getElem?

/-- Numbers are never given to another value. -/
def Extends (s r : Register α) : Prop := r.entries <+: s.entries

theorem Extends.refl (r : Register α) : Extends r r := List.prefix_rfl

theorem Extends.trans {r s t : Register α} (hts : Extends t s)
    (hsr : Extends s r) : Extends t r := List.IsPrefix.trans hsr hts

theorem Extends.get? {s r : Register α} (h : Extends s r) {i : Nat} {a : α}
    (hi : r.get? i = some a) : s.get? i = some a := by
  obtain ⟨rest, hrest⟩ := h
  rw [Register.get?, ← hrest, List.getElem?_append_left (get?_lt hi)]
  exact hi

variable [DecidableEq α]

def enter (r : Register α) (a : α) : Register α :=
  if h : a ∈ r.entries then r
  else ⟨r.entries ++ [a], by
    rw [← List.concat_eq_append]
    exact r.nodup.concat h⟩

def enterAll (r : Register α) (values : List α) : Register α :=
  values.foldl enter r

@[simp] theorem enterAll_nil (r : Register α) : r.enterAll [] = r := rfl

theorem enterAll_append (r : Register α) (as bs : List α) :
    r.enterAll (as ++ bs) = (r.enterAll as).enterAll bs :=
  List.foldl_append

theorem enterAll_singleton (r : Register α) (a : α) :
    r.enterAll [a] = r.enter a := rfl

theorem enter_of_mem {r : Register α} {a : α} (h : a ∈ r.entries) :
    r.enter a = r := dif_pos h

theorem entries_enter {r : Register α} {a : α} (h : a ∉ r.entries) :
    (r.enter a).entries = r.entries ++ [a] := by
  rw [enter, dif_neg h]

theorem get?_enter {r : Register α} {a : α} (h : a ∉ r.entries) (i : Nat) :
    (r.enter a).get? i = if i = r.size then some a else r.get? i := by
  rw [get?, entries_enter h]
  by_cases hi : i < r.entries.length
  · have hne : i ≠ r.size := Nat.ne_of_lt hi
    rw [List.getElem?_append_left hi, if_neg hne]
    rfl
  · have hge : r.entries.length ≤ i := Nat.le_of_not_lt hi
    rw [List.getElem?_append_right hge]
    by_cases heq : i = r.size
    · simp [heq, size]
    · have hpos : 0 < i - r.entries.length := Nat.sub_pos_of_lt
        (Nat.lt_of_le_of_ne hge fun h => heq h.symm)
      rw [if_neg heq, get?, List.getElem?_eq_none hge,
        List.getElem?_eq_none (by simpa using Nat.succ_le_of_lt hpos)]

theorem size_enter {r : Register α} {a : α} (h : a ∉ r.entries) :
    (r.enter a).size = r.size + 1 := by
  simp [size, entries_enter h]

theorem extends_enter (r : Register α) (a : α) : Extends (r.enter a) r := by
  by_cases h : a ∈ r.entries
  · rw [enter_of_mem h]
    exact .refl r
  · rw [Extends, entries_enter h]
    exact List.prefix_append _ _

theorem extends_enterAll (r : Register α) (values : List α) :
    Extends (r.enterAll values) r := by
  induction values generalizing r with
  | nil => exact .refl r
  | cons a values ih => exact (ih (r.enter a)).trans (extends_enter r a)

theorem get?_of_mem_enter (r : Register α) (a : α) :
    ∃ i, (r.enter a).get? i = some a := by
  by_cases h : a ∈ r.entries
  · rw [enter_of_mem h]
    exact mem_iff.mp h
  · exact ⟨r.size, by rw [get?_enter h, if_pos rfl]⟩

theorem enterAll_of_subset {r : Register α} {values : List α}
    (h : values ⊆ r.entries) : r.enterAll values = r := by
  induction values with
  | nil => rfl
  | cons a values ih =>
      rw [List.cons_subset] at h
      have hstep : r.enterAll (a :: values) = (r.enter a).enterAll values := rfl
      rw [hstep, enter_of_mem h.1]
      exact ih h.2

end Register
