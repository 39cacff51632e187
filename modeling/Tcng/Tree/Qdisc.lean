import Mathlib.Data.List.Basic
import Tcng.Lib.Program

/-! Qdiscs and their classes (`tree.h`), with what the nodes hold left open,
and the walk over all qdiscs at or below one (`qdisc.c`). -/

namespace Tcng

variable {Q C : Type}

mutual

/-- `QDISC *` -/
inductive Qdisc (Q C : Type)
  | null
  | qdisc (info : Q) (classes : Classes Q C)

/-- `CLASS *`, the list that `next` links. -/
inductive Classes (Q C : Type)
  | null
  | class (info : C) (qdisc : Qdisc Q C) (child next : Classes Q C)

end

mutual

/-- The qdiscs in the order of the walk. -/
def Qdisc.qdiscs : Qdisc Q C → List Q
  | .null => []
  | .qdisc info classes => info :: classes.qdiscs

def Classes.qdiscs : Classes Q C → List Q
  | .null => []
  | .class _ qdisc child next => qdisc.qdiscs ++ (child.qdiscs ++ next.qdiscs)

end

namespace Classes

/-- `class->qdisc` for each class of one qdisc. -/
def attached : Classes Q C → List (Qdisc Q C)
  | .null => []
  | .class _ qdisc child next => qdisc :: (child.attached ++ next.attached)

end Classes

/-- The classes of one qdisc with the qdiscs attached to them. -/
def Classes.members : Classes Q C → List (C × Qdisc Q C)
  | .null => []
  | .class info qdisc child next =>
      (info, qdisc) :: (child.members ++ next.members)

mutual

/-- All classes at and below a qdisc. -/
def Qdisc.classInfos : Qdisc Q C → List C
  | .null => []
  | .qdisc _ classes => classes.classInfos

def Classes.classInfos : Classes Q C → List C
  | .null => []
  | .class info qdisc child next =>
      info :: (qdisc.classInfos ++ (child.classInfos ++ next.classInfos))

end

/-- The qdisc itself, and the qdiscs at and below each of its classes. -/
def Qdisc.branches : Qdisc Q C → List (List Q)
  | .null => []
  | .qdisc info classes => [info] :: classes.attached.map Qdisc.qdiscs

theorem Classes.attached_subset (t : Classes Q C) :
    ∀ qdisc ∈ t.attached, qdisc.qdiscs ⊆ t.qdiscs := by
  match t with
  | .null => simp [attached]
  | .class info qdisc child next =>
      have hchild := attached_subset child
      have hnext := attached_subset next
      intro below hbelow q hq
      simp only [attached, List.mem_cons, List.mem_append] at hbelow
      simp only [qdiscs, List.mem_append]
      rcases hbelow with rfl | hbelow | hbelow
      · exact .inl hq
      · exact .inr (.inl (hchild below hbelow hq))
      · exact .inr (.inr (hnext below hbelow hq))

theorem Qdisc.branches_subset (t : Qdisc Q C) :
    ∀ x ∈ t.branches, x ⊆ t.qdiscs := by
  cases t with
  | null => simp [branches]
  | qdisc info classes =>
      intro x hx q hq
      simp only [branches, List.mem_cons, List.mem_map] at hx
      rcases hx with rfl | ⟨below, hbelow, rfl⟩
      · simp_all [qdiscs]
      · simp [qdiscs, classes.attached_subset below hbelow hq]

section

variable {m : Type → Type} [Monad m]

mutual

def recurseQdisc (fn : Q → m Nat) : Qdisc Q C → m Nat
  | .null => pure 0
  | .qdisc info classes => do
      let own ← fn info
      let count ← recurseClasses fn classes
      pure (own + count)

/-- `recurse_class` with `class_to_qdisc`: what is counted is the classes for
which the walk below returns something. -/
def recurseClasses (fn : Q → m Nat) : Classes Q C → m Nat
  | .null => pure 0
  | .class _ qdisc child next => do
      let found ← recurseQdisc fn qdisc
      let nested ← recurseClasses fn child
      let count ← recurseClasses fn next
      pure ((if found ≠ 0 then 1 else 0) + nested + count)

end

end

/-! ## Visiting -/

/-- Calling a function for each node, its results dropped. -/
def visit {σ ε : Type} (fn : Q → Program σ ε Nat) : List Q → Program σ ε Unit
  | [] => pure ()
  | q :: rest => do
      let _ ← fn q
      visit fn rest

section

variable {σ ε : Type} {fn : Q → Program σ ε Nat} {P : σ → Prop}
  {E : ε → σ → Prop}

theorem visit_append (xs ys : List Q) (s : σ) :
    Program.wp (visit fn (xs ++ ys)) (fun _ => P) E s ↔
      Program.wp (visit fn xs)
        (fun _ s' => Program.wp (visit fn ys) (fun _ => P) E s') E s := by
  induction xs generalizing s with
  | nil => simp [visit]
  | cons x xs ih =>
      simp only [List.cons_append, visit, Program.wp_bind]
      simp only [ih]

mutual

theorem recurseQdisc_visits {P : σ → Prop} (t : Qdisc Q C) (s : σ) :
    Program.wp (recurseQdisc fn t) (fun _ => P) E s ↔
      Program.wp (visit fn t.qdiscs) (fun _ => P) E s := by
  cases t with
  | null => simp [recurseQdisc, Qdisc.qdiscs, visit]
  | qdisc info classes =>
      simp only [recurseQdisc, Qdisc.qdiscs, visit, Program.wp_bind,
        Program.wp_pure]
      simp only [recurseClasses_visits classes]

theorem recurseClasses_visits {P : σ → Prop} (t : Classes Q C) (s : σ) :
    Program.wp (recurseClasses fn t) (fun _ => P) E s ↔
      Program.wp (visit fn t.qdiscs) (fun _ => P) E s := by
  cases t with
  | null => simp [recurseClasses, Classes.qdiscs, visit]
  | «class» info qdisc child next =>
      simp only [recurseClasses, Classes.qdiscs, visit_append, Program.wp_bind,
        Program.wp_pure]
      simp only [recurseClasses_visits next]
      simp only [recurseClasses_visits child]
      rw [recurseQdisc_visits qdisc]

end

end

/-! ## Counting -/

theorem one_lt_countP {α : Type} (p : α → Bool) (l : List α) :
    1 < l.countP p ↔ ∃ x y, [x, y].Sublist l ∧ p x = true ∧ p y = true := by
  constructor
  · intro h
    rw [List.countP_eq_length_filter] at h
    cases hf : l.filter p with
    | nil => simp [hf] at h
    | cons x rest =>
        cases rest with
        | nil => simp [hf] at h
        | cons y rest =>
            have hx : x ∈ l.filter p := by simp [hf]
            have hy : y ∈ l.filter p := by simp [hf]
            refine ⟨x, y, ?_, (List.mem_filter.mp hx).2, (List.mem_filter.mp hy).2⟩
            have hsub : [x, y].Sublist (l.filter p) := by
              rw [hf]
              simp
            exact hsub.trans List.filter_sublist
  · rintro ⟨x, y, hsub, hx, hy⟩
    have hle := hsub.countP_le (p := p)
    simp [hx, hy] at hle
    omega

section

variable (p : Q → Bool)

/-- Counting the qdiscs of a kind. -/
def countQdiscs (t : Qdisc Q C) : Nat :=
  recurseQdisc (m := Id) (fun q => if p q then 1 else 0) t

def countClasses (t : Classes Q C) : Nat :=
  recurseClasses (m := Id) (fun q => if p q then 1 else 0) t

@[simp] theorem countQdiscs_null :
    countQdiscs p (.null : Qdisc Q C) = 0 := rfl

@[simp] theorem countQdiscs_qdisc (info : Q) (classes : Classes Q C) :
    countQdiscs p (.qdisc info classes) =
      (if p info then 1 else 0) + countClasses p classes := rfl

@[simp] theorem countClasses_null :
    countClasses p (.null : Classes Q C) = 0 := rfl

@[simp] theorem countClasses_class (info : C) (qdisc : Qdisc Q C)
    (child next : Classes Q C) :
    countClasses p (.class info qdisc child next) =
      (if countQdiscs p qdisc ≠ 0 then 1 else 0) + countClasses p child +
        countClasses p next := rfl

mutual

theorem countQdiscs_eq_zero (t : Qdisc Q C) :
    countQdiscs p t = 0 ↔ ∀ q ∈ t.qdiscs, p q = false := by
  cases t with
  | null => simp [Qdisc.qdiscs]
  | qdisc info classes =>
      simp [Qdisc.qdiscs, countClasses_eq_zero classes]

theorem countClasses_eq_zero (t : Classes Q C) :
    countClasses p t = 0 ↔ ∀ q ∈ t.qdiscs, p q = false := by
  cases t with
  | null => simp [Classes.qdiscs]
  | «class» info qdisc child next =>
      have hqdisc := countQdiscs_eq_zero qdisc
      have hchild := countClasses_eq_zero child
      have hnext := countClasses_eq_zero next
      simp [Classes.qdiscs, or_imp, forall_and, hqdisc, hchild, hnext, and_assoc]

end

theorem countQdiscs_ne_zero (t : Qdisc Q C) :
    countQdiscs p t ≠ 0 ↔ t.qdiscs.any p = true := by
  rw [ne_eq, countQdiscs_eq_zero]
  simp

mutual

theorem countQdiscs_congr {p p' : Q → Bool} (t : Qdisc Q C)
    (h : ∀ q ∈ t.qdiscs, p q = p' q) : countQdiscs p t = countQdiscs p' t := by
  cases t with
  | null => rfl
  | qdisc info classes =>
      have hinfo := h info (by simp [Qdisc.qdiscs])
      have hclasses := countClasses_congr classes fun q hq =>
        h q (by simp [Qdisc.qdiscs, hq])
      rw [countQdiscs_qdisc, countQdiscs_qdisc, hinfo, hclasses]

theorem countClasses_congr {p p' : Q → Bool} (t : Classes Q C)
    (h : ∀ q ∈ t.qdiscs, p q = p' q) :
    countClasses p t = countClasses p' t := by
  cases t with
  | null => rfl
  | «class» info qdisc child next =>
      have hqdisc := countQdiscs_congr qdisc fun q hq =>
        h q (by simp [Classes.qdiscs, hq])
      have hchild := countClasses_congr child fun q hq =>
        h q (by simp [Classes.qdiscs, hq])
      have hnext := countClasses_congr next fun q hq =>
        h q (by simp [Classes.qdiscs, hq])
      rw [countClasses_class, countClasses_class, hqdisc, hchild, hnext]

end

theorem countClasses_eq_attached (t : Classes Q C) :
    countClasses p t =
      (t.attached.map Qdisc.qdiscs).countP (fun qs => qs.any p) := by
  match t with
  | .null => rfl
  | .class info qdisc child next =>
      simp only [countClasses_class, Classes.attached, List.map_cons,
        List.map_append, List.countP_cons, List.countP_append,
        countQdiscs_ne_zero, countClasses_eq_attached child,
        countClasses_eq_attached next]
      omega

/-- A walk from above sees no more than one occurrence below each class. -/
theorem countQdiscs_eq_branches (t : Qdisc Q C) :
    countQdiscs p t = t.branches.countP (fun qs => qs.any p) := by
  cases t with
  | null => rfl
  | qdisc info classes =>
      simp only [countQdiscs_qdisc, Qdisc.branches, List.countP_cons,
        countClasses_eq_attached]
      simp [Nat.add_comm]

end

end Tcng
