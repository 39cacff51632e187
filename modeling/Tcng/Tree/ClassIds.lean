import Mathlib.Data.List.Nodup
import Mathlib.Logic.Function.Basic
import Tcng.Data
import Tcng.Lib.Mask
import Tcng.Tree.QdiscIds

/-! Numbers of classes (`qdisc.c`). -/

namespace Tcng

variable {Q C : Type}

/-- The classes of one qdisc in the order of the walk. -/
def Classes.infos : Classes Q C → List C
  | .null => []
  | .class info _ child next => info :: (child.infos ++ next.infos)

def recurseClass {m : Type → Type} [Monad m] (fn : C → m Nat) :
    Classes Q C → m Nat
  | .null => pure 0
  | .class info _ child next => do
      let found ← fn info
      let nested ← recurseClass fn child
      let count ← recurseClass fn next
      pure ((if found ≠ 0 then 1 else 0) + nested + count)

theorem recurseClass_visits {σ ε : Type} {fn : C → Program σ ε Nat}
    {P : σ → Prop} {E : ε → σ → Prop} (t : Classes Q C) (s : σ) :
    Program.wp (recurseClass fn t) (fun _ => P) E s ↔
      Program.wp (visit fn t.infos) (fun _ => P) E s := by
  match t with
  | .null => simp [recurseClass, Classes.infos, visit]
  | .class info qdisc child next =>
      simp only [recurseClass, Classes.infos, visit, visit_append,
        Program.wp_bind, Program.wp_pure]
      simp only [recurseClass_visits next]
      simp only [recurseClass_visits child]

/-- The `number` of each class by address, and `curr_id`. -/
structure ClassIds where
  number : Nat → BitVec 32
  currId : BitVec 32

def countClassIds (number : Nat → BitVec 32) (user : BitVec 32)
    (root : Classes Q Nat) : Nat :=
  recurseClass (m := Id) (fun c => if number c == user then 1 else 0) root

/-- `while (recurse_class(root,count_class_ids,&curr_id)) curr_id++;` -/
def nextClassId (number : Nat → BitVec 32) (root : Classes Q Nat) :
    Nat → BitVec 32 → Option (BitVec 32)
  | 0, _ => none
  | fuel + 1, currId =>
      if countClassIds number currId root ≠ 0 then
        nextClassId number root fuel (currId + 1)
      else some currId

def duplicateClassId (n : BitVec 32) : Error :=
  .error ("duplicate class ID 0x" ++ hex n)

def invalidClassId (n : BitVec 32) : Error :=
  .error ("invalid class disc ID 0x" ++ hex n)

/-- As for qdiscs, the search does not end once it has tried every number. -/
def chooseClassId (root : Classes Q Nat) (c : Nat) :
    Program ClassIds Error Unit := do
  let s ← .get
  if s.number c ≠ undefU32 then
    if 1 < countClassIds s.number (s.number c) root then
      .throw (duplicateClassId (s.number c))
    else pure ()
  else
    match nextClassId s.number root (2 ^ 32) s.currId with
    | none => .throw .outOfFuel
    | some id => .modify fun s =>
        { number := Function.update s.number c id, currId := id }

def assignClassId (root : Classes Q Nat) (c : Nat) :
    Program ClassIds Error Nat := do
  chooseClassId root c
  let s ← .get
  if s.number c &&& ~~~0xffff ≠ 0 then .throw (invalidClassId (s.number c))
  else pure 0

/-- `(void) recurse_class(root,assign_class_id,root);` -/
def assignClassIds (root : Classes Q Nat) : Program ClassIds Error Unit := do
  let _ ← recurseClass (assignClassId root) root
  pure ()

/-! ## Counting and searching -/

theorem countClassIds_eq (number : Nat → BitVec 32) (v : BitVec 32)
    (root : Classes Q Nat) :
    countClassIds number v root = root.infos.countP (number · == v) := by
  match root with
  | .null => rfl
  | .class info qdisc child next =>
      have hstep : countClassIds number v (.class info qdisc child next) =
          (if (if number info == v then 1 else 0) ≠ 0 then 1 else 0) +
            countClassIds number v child + countClassIds number v next := rfl
      rw [hstep, countClassIds_eq number v child, countClassIds_eq number v next,
        Classes.infos, List.countP_cons, List.countP_append]
      cases number info == v <;> simp [Nat.add_comm, Nat.add_assoc]

theorem countClassIds_eq_zero (number : Nat → BitVec 32) (v : BitVec 32)
    (root : Classes Q Nat) :
    countClassIds number v root = 0 ↔ ∀ a ∈ root.infos, number a ≠ v := by
  rw [countClassIds_eq, List.countP_eq_zero]
  simp

theorem one_lt_countClassIds (number : Nat → BitVec 32) (root : Classes Q Nat)
    (hnodup : root.infos.Nodup) {c : Nat} (hc : c ∈ root.infos) :
    1 < countClassIds number (number c) root ↔
      ∃ d ∈ root.infos, d ≠ c ∧ number d = number c := by
  rw [countClassIds_eq]
  constructor
  · intro h
    obtain ⟨x, y, hsub, hx, hy⟩ := (one_lt_countP _ _).mp h
    have hne : x ≠ y := by simpa using hsub.nodup hnodup
    have hmem := hsub.subset
    rcases eq_or_ne x c with rfl | hxc
    · exact ⟨y, hmem (by simp), hne.symm, by simpa using hy⟩
    · exact ⟨x, hmem (by simp), hxc, by simpa using hx⟩
  · rintro ⟨d, hd, hne, heq⟩
    have hpair : [c, d].Nodup := by simpa using hne.symm
    have hsub : [c, d].Subperm root.infos := by
      apply hpair.subperm
      intro x hx
      rcases List.mem_pair.mp hx with rfl | rfl
      · exact hc
      · exact hd
    have hle := hsub.countP_le (number · == number c)
    simp only [List.countP_cons, heq, beq_self_eq_true] at hle
    exact hle

private theorem nextClassId_unused {number : Nat → BitVec 32}
    {root : Classes Q Nat} {fuel : Nat} {currId id : BitVec 32}
    (h : nextClassId number root fuel currId = some id) :
    ∀ a ∈ root.infos, number a ≠ id := by
  induction fuel generalizing currId with
  | zero => simp [nextClassId] at h
  | succ fuel ih =>
      rw [nextClassId] at h
      split at h
      · exact ih h
      · next hzero =>
        cases h
        exact (countClassIds_eq_zero _ _ _).mp (not_not.mp hzero)

/-- A search without a result has met only numbers in use. -/
private theorem nextClassId_none {number : Nat → BitVec 32}
    {root : Classes Q Nat} {fuel : Nat} {currId : BitVec 32}
    (h : nextClassId number root fuel currId = none) :
    ∀ k < fuel, ∃ a ∈ root.infos, number a = currId + BitVec.ofNat 32 k := by
  induction fuel generalizing currId with
  | zero => intro k hk; omega
  | succ fuel ih =>
      rw [nextClassId] at h
      split at h
      · next hused =>
        intro k hk
        rw [ne_eq, countClassIds_eq_zero] at hused
        push Not at hused
        cases k with
        | zero => simpa using hused
        | succ k =>
            obtain ⟨a, ha, hnumber⟩ := ih h k (by omega)
            refine ⟨a, ha, ?_⟩
            rw [hnumber]
            bv_omega
      · cases h

/-- The search goes on for ever only if there are too many classes. -/
private theorem nextClassId_full {number : Nat → BitVec 32}
    {root : Classes Q Nat} {currId : BitVec 32}
    (h : nextClassId number root (2 ^ 32) currId = none) :
    2 ^ 32 ≤ root.infos.length := by
  have hsub : Finset.range (2 ^ 32) ⊆
      (root.infos.map fun a => (number a).toNat).toFinset := by
    intro n hn
    have hn := Finset.mem_range.mp hn
    have hlt := (BitVec.ofNat 32 n - currId).isLt
    obtain ⟨a, ha, hnumber⟩ := nextClassId_none h _ hlt
    rw [List.mem_toFinset, List.mem_map]
    refine ⟨a, ha, ?_⟩
    rw [hnumber]
    bv_omega
  calc 2 ^ 32 = (Finset.range (2 ^ 32)).card := (Finset.card_range _).symm
    _ ≤ _ := Finset.card_le_card hsub
    _ ≤ (root.infos.map fun a => (number a).toNat).length :=
        List.toFinset_card_le _
    _ = root.infos.length := List.length_map _

/-! ## The walk -/

/-- The addresses of the classes of one qdisc. -/
structure ClassForest (Q : Type) where
  root : Classes Q Nat
  distinct : root.infos.Nodup

/-- No two classes have the same number, all are valid, and the given ones are
as they were. -/
structure ClassesNumbered (classes : List Nat)
    (given number : Nat → BitVec 32) : Prop where
  distinct : classes.Pairwise fun a b => number a ≠ number b
  valid : ∀ a ∈ classes, (number a).toNat ≤ 0xffff
  kept : ∀ a ∈ classes, given a ≠ undefU32 → number a = given a

/-- Another class is given the same number. -/
def RepeatedId (classes : List Nat) (given : Nat → BitVec 32) (c : Nat) : Prop :=
  given c ≠ undefU32 ∧ ∃ d ∈ classes, d ≠ c ∧ given d = given c

/-- Where a walk that numbers classes stands between two of them. -/
structure ClassProgress (valid : Nat → BitVec 32 → Prop) (classes : List Nat)
    (given : Nat → BitVec 32) (before rest : List Nat)
    (number : Nat → BitVec 32) : Prop where
  kept : ∀ a ∈ classes, given a ≠ undefU32 → number a = given a
  waiting : ∀ a ∈ rest, number a = given a
  settled : ∀ a ∈ before, valid a (number a) ∧
    ∀ b ∈ classes, b ≠ a → number b ≠ number a

/-- Why a class is rejected. -/
structure ClassRejected (classes : List Nat) (given : Nat → BitVec 32)
    (c : Nat) (e : Error) : Prop where
  duplicate : (∃ n, e = duplicateClassId n) ↔ RepeatedId classes given c
  full : e = .outOfFuel → 2 ^ 32 ≤ classes.length

namespace ClassProgress

variable {valid : Nat → BitVec 32 → Prop} {classes : List Nat}
  {given number : Nat → BitVec 32} {before rest : List Nat} {c : Nat}

theorem start (valid : Nat → BitVec 32 → Prop) (classes : List Nat)
    (given : Nat → BitVec 32) (rest : List Nat) :
    ClassProgress valid classes given [] rest given where
  kept := fun _ _ _ => rfl
  waiting := fun _ _ => rfl
  settled := fun _ ha => absurd ha List.not_mem_nil

/-- A number that is met again was given twice. -/
theorem repeated_iff
    (h : ClassProgress valid classes given before (c :: rest) number)
    (hclasses : classes = before ++ c :: rest) (hgiven : given c ≠ undefU32) :
    (∃ d ∈ classes, d ≠ c ∧ number d = number c) ↔
      RepeatedId classes given c := by
  have hc : c ∈ classes := by simp [hclasses]
  constructor
  · rintro ⟨d, hd, hne, heq⟩
    refine ⟨hgiven, d, hd, hne, ?_⟩
    have hrest : d ∈ c :: rest := by
      rw [hclasses, List.mem_append] at hd
      apply hd.resolve_left
      intro hbefore
      exact (h.settled d hbefore).2 c hc hne.symm heq.symm
    rw [← h.waiting d hrest, heq, h.waiting c (by simp)]
  · rintro ⟨-, d, hd, hne, heq⟩
    refine ⟨d, hd, hne, ?_⟩
    rw [h.kept d hd (heq ▸ hgiven), h.kept c hc hgiven, heq]

/-- A given number is kept. -/
theorem keep (h : ClassProgress valid classes given before (c :: rest) number)
    (hvalid : valid c (number c))
    (halone : ∀ b ∈ classes, b ≠ c → number b ≠ number c) :
    ClassProgress valid classes given (before ++ [c]) rest number where
  kept := h.kept
  waiting a ha := h.waiting a (List.mem_cons_of_mem _ ha)
  settled := by
    intro a ha
    rcases List.mem_append.mp ha with hbefore | hlast
    · exact h.settled a hbefore
    · obtain rfl := List.mem_singleton.mp hlast
      exact ⟨hvalid, halone⟩

/-- A number that no class has is taken. -/
theorem take (h : ClassProgress valid classes given before (c :: rest) number)
    (hnodup : classes.Nodup) (hclasses : classes = before ++ c :: rest)
    (hundef : given c = undefU32) {id : BitVec 32} (hvalid : valid c id)
    (hunused : ∀ a ∈ classes, number a ≠ id) :
    ClassProgress valid classes given (before ++ [c]) rest
      (Function.update number c id) where
  kept := by
    intro a ha hgiven
    have hne : a ≠ c := by
      rintro rfl
      exact hgiven hundef
    rw [Function.update_of_ne hne]
    exact h.kept a ha hgiven
  waiting := by
    intro a ha
    have hne : a ≠ c := by
      rintro rfl
      rw [hclasses, List.nodup_append] at hnodup
      exact (List.nodup_cons.mp hnodup.2.1).1 ha
    rw [Function.update_of_ne hne]
    exact h.waiting a (List.mem_cons_of_mem _ ha)
  settled := by
    intro a ha
    rcases List.mem_append.mp ha with hbefore | hlast
    · have hmem : a ∈ classes := by simp [hclasses, hbefore]
      have hne : a ≠ c := by
        rintro rfl
        rw [hclasses, List.nodup_append] at hnodup
        exact hnodup.2.2 a hbefore a (by simp) rfl
      rw [Function.update_of_ne hne]
      refine ⟨(h.settled a hbefore).1, ?_⟩
      intro b hb hba
      rcases eq_or_ne b c with rfl | hbc
      · rw [Function.update_self]
        exact (hunused a hmem).symm
      · rw [Function.update_of_ne hbc]
        exact (h.settled a hbefore).2 b hb hba
    · obtain rfl := List.mem_singleton.mp hlast
      rw [Function.update_self]
      refine ⟨hvalid, ?_⟩
      intro b hb hne
      rw [Function.update_of_ne hne]
      exact hunused b hb

theorem pairwise (h : ClassProgress valid classes given classes [] number)
    (hnodup : classes.Nodup) :
    classes.Pairwise fun a b => number a ≠ number b := by
  apply hnodup.imp_of_mem
  intro a b ha hb hne
  exact (h.settled b hb).2 a ha hne

end ClassProgress

/-- The numbers that can be written as such. -/
def LowId (_ : Nat) (n : BitVec 32) : Prop := n.toNat ≤ 0xffff

theorem invalidClassId_ne (n m : BitVec 32) :
    invalidClassId m ≠ duplicateClassId n := by
  intro h
  have hfirst := congrArg (fun text : String => text.toList.head?)
    (Error.error.inj h)
  simp at hfirst

section

variable {root : Classes Q Nat} {given : Nat → BitVec 32} {c : Nat}
  {before rest : List Nat} {s : ClassIds}

/-- An invalid number is not called a duplicate. -/
theorem ClassRejected.invalid {classes : List Nat}
    (hnot : ¬RepeatedId classes given c) (m : BitVec 32) :
    ClassRejected classes given c (invalidClassId m) where
  duplicate := by
    constructor
    · rintro ⟨n, hn⟩
      exact absurd hn (invalidClassId_ne n m)
    · exact fun hrepeated => absurd hrepeated hnot
  full := fun hfuel => (by cases hfuel)

/-- One step of the walk. -/
theorem assignClassId_progress
    (h : ClassProgress LowId root.infos given before (c :: rest) s.number)
    (hnodup : root.infos.Nodup) (hclasses : root.infos = before ++ c :: rest) :
    Program.wp (assignClassId root c)
      (fun _ s' => ClassProgress LowId root.infos given (before ++ [c]) rest
          s'.number ∧
        ¬RepeatedId root.infos given c)
      (fun e _ => ClassRejected root.infos given c e) s := by
  have hc : c ∈ root.infos := by simp [hclasses]
  have hnumber := h.waiting c (by simp)
  simp only [assignClassId, chooseClassId, Program.wp_bind, Program.wp_get]
  rcases eq_or_ne (given c) undefU32 with hundef | hgiven
  · have hnot : ¬RepeatedId root.infos given c := fun hr => hr.1 hundef
    rw [if_neg (by simp [hnumber, hundef])]
    cases hfound : nextClassId s.number root (2 ^ 32) s.currId with
    | none =>
        have hnone : ¬∃ n, Error.outOfFuel = duplicateClassId n := by
          intro h
          obtain ⟨n, hn⟩ := h
          cases hn
        refine ⟨⟨fun h => absurd h hnone, fun hr => absurd hr hnot⟩, ?_⟩
        exact fun _ => nextClassId_full hfound
    | some id =>
        rw [Program.wp_modify]
        simp only [Function.update_self]
        rw [Program.wp_ite, ne_eq, and_not_eq_zero]
        constructor
        · exact fun _ => .invalid hnot id
        · intro hvalid
          exact ⟨h.take hnodup hclasses hundef (not_not.mp hvalid)
            (nextClassId_unused hfound), hnot⟩
  · rw [if_pos (by simpa [hnumber] using hgiven), Program.wp_ite,
      one_lt_countClassIds s.number root hnodup hc,
      h.repeated_iff hclasses hgiven]
    constructor
    · intro hrepeated
      refine ⟨⟨fun _ => hrepeated, fun _ => ⟨_, rfl⟩⟩, ?_⟩
      exact fun hfuel => (by cases hfuel)
    · intro hnot
      simp only [Program.wp_pure]
      rw [Program.wp_ite, ne_eq, and_not_eq_zero]
      constructor
      · exact fun _ => .invalid hnot _
      · intro hvalid
        refine ⟨h.keep (not_not.mp hvalid) ?_, hnot⟩
        rw [← h.repeated_iff hclasses hgiven] at hnot
        intro b hb hne heq
        exact hnot ⟨b, hb, hne, heq⟩

/-- The class at which a walk ended. -/
structure EndedAt (root : Classes Q Nat) (given : Nat → BitVec 32) (s : ClassIds)
    (classes walked : List Nat) (c : Nat) (later : List Nat) (e : Error) :
    Prop where
  place : classes = walked ++ c :: later
  reached : (visit (assignClassId root) walked s).1 = .ok ()
  rejected : ClassRejected root.infos given c e

/-- The walk over some of the classes. -/
theorem visit_classProgress {later : List Nat} (hnodup : root.infos.Nodup)
    (h : ClassProgress LowId root.infos given before (rest ++ later) s.number)
    (hclasses : root.infos = before ++ (rest ++ later)) :
    Program.wp (visit (assignClassId root) rest)
      (fun _ s' => ClassProgress LowId root.infos given (before ++ rest) later
          s'.number ∧
        ∀ c ∈ rest, ¬RepeatedId root.infos given c)
      (fun e _ => ∃ walked c behind,
        EndedAt root given s rest walked c behind e) s := by
  induction rest generalizing before s with
  | nil =>
      rw [List.append_nil]
      exact ⟨h, fun c hc => absurd hc List.not_mem_nil⟩
  | cons c rest ih =>
      have hstep := assignClassId_progress h hnodup hclasses
      rw [visit, Program.wp_bind]
      apply Program.wp_mono
        (Program.wp_and (Program.wp_run (assignClassId root c) s) hstep)
      · rintro n s' ⟨hrun, hprogress, hnot⟩
        have hplace : root.infos = before ++ [c] ++ (rest ++ later) := by
          rw [hclasses, List.append_assoc]
          rfl
        apply Program.wp_mono (ih hprogress hplace)
        · rintro - t ⟨hdone, hnone⟩
          rw [List.append_assoc] at hdone
          exact ⟨hdone, List.forall_mem_cons.mpr ⟨hnot, hnone⟩⟩
        · rintro e t ⟨walked, c', behind, hended⟩
          refine ⟨c :: walked, c', behind, ?_, ?_, hended.rejected⟩
          · rw [hended.place]
            rfl
          · rw [visit, Program.bind_of_ok hrun]
            exact hended.reached
      · rintro e s' ⟨-, hrejected⟩
        exact ⟨[], c, rest, rfl, rfl, hrejected⟩

end

private theorem ClassForest.start (forest : ClassForest Q)
    (given : Nat → BitVec 32) (currId : BitVec 32) {rest later : List Nat}
    (hclasses : forest.root.infos = rest ++ later) :
    Program.wp (visit (assignClassId forest.root) rest)
      (fun _ s' => ClassProgress LowId forest.root.infos given rest later
          s'.number ∧
        ∀ c ∈ rest, ¬RepeatedId forest.root.infos given c)
      (fun e _ => ∃ walked c behind,
        EndedAt forest.root given ⟨given, currId⟩ rest walked c behind e)
      ⟨given, currId⟩ := by
  have hstart := ClassProgress.start LowId forest.root.infos given (rest ++ later)
  exact visit_classProgress (s := ⟨given, currId⟩) forest.distinct hstart
    hclasses

/-- The whole walk, as a visit of all classes. -/
private theorem assignClassIds_visits (root : Classes Q Nat) (P : ClassIds → Prop)
    (E : Error → ClassIds → Prop) (s : ClassIds) :
    Program.wp (assignClassIds root) (fun _ => P) E s ↔
      Program.wp (visit (assignClassId root) root.infos) (fun _ => P) E s := by
  simp only [assignClassIds, Program.wp_bind, Program.wp_pure]
  rw [recurseClass_visits]

private theorem assignClassIds_ends (forest : ClassForest Q)
    (given : Nat → BitVec 32) (currId : BitVec 32) :
    Program.wp (assignClassIds forest.root)
      (fun _ s' => ClassProgress LowId forest.root.infos given forest.root.infos []
          s'.number ∧
        ∀ c ∈ forest.root.infos, ¬RepeatedId forest.root.infos given c)
      (fun e _ => ∃ walked c behind, EndedAt forest.root given ⟨given, currId⟩
        forest.root.infos walked c behind e)
      ⟨given, currId⟩ := by
  rw [assignClassIds_visits]
  exact forest.start given currId (List.append_nil _).symm

/-- A class with a repeated number ends the walk that gets to it. -/
private theorem assignClassIds_repeated (forest : ClassForest Q)
    (given : Nat → BitVec 32) (currId : BitVec 32) {before after : List Nat}
    {c : Nat} (hclasses : forest.root.infos = before ++ c :: after)
    (hrepeated : RepeatedId forest.root.infos given c)
    (hreached : (visit (assignClassId forest.root) before ⟨given, currId⟩).1 =
      .ok ()) :
    Program.wp (assignClassIds forest.root) (fun _ _ => False)
      (fun e _ => ∃ n, e = duplicateClassId n) ⟨given, currId⟩ := by
  have hbefore := Program.wp_and (forest.start given currId hclasses)
    (Program.wp_run (visit (assignClassId forest.root) before) ⟨given, currId⟩)
  rw [assignClassIds_visits, hclasses, visit_append]
  apply Program.wp_mono hbefore
  · rintro - s ⟨⟨hprogress, -⟩, -⟩
    rw [visit, Program.wp_bind]
    apply Program.wp_mono
      (assignClassId_progress hprogress forest.distinct hclasses)
    · exact fun _ _ hstep => absurd hrepeated hstep.2
    · exact fun _ _ hrejected => hrejected.duplicate.mpr hrepeated
  · rintro e s ⟨-, hrun⟩
    rw [hrun] at hreached
    cases hreached

private theorem ClassProgress.numbered {forest : ClassForest Q}
    {given : Nat → BitVec 32} {s : ClassIds}
    (h : ClassProgress LowId forest.root.infos given forest.root.infos []
      s.number) :
    ClassesNumbered forest.root.infos given s.number where
  distinct := h.pairwise forest.distinct
  valid a ha := (h.settled a ha).1
  kept := h.kept

/-- The walk leaves valid numbers or ends with an error; the error is that of a
duplicate exactly if the walk gets to a class whose number is given twice. -/
theorem assignClassIds_numbers (forest : ClassForest Q)
    (given : Nat → BitVec 32) (currId : BitVec 32) :
    (∀ s, assignClassIds forest.root ⟨given, currId⟩ = (.ok (), s) →
      ClassesNumbered forest.root.infos given s.number) ∧
      ((∃ c ∈ forest.root.infos, RepeatedId forest.root.infos given c) →
        ∃ e, (assignClassIds forest.root ⟨given, currId⟩).1 = .error e) ∧
      ((∃ n, (assignClassIds forest.root ⟨given, currId⟩).1 =
          .error (duplicateClassId n)) ↔
        ∃ before c after, forest.root.infos = before ++ c :: after ∧
          RepeatedId forest.root.infos given c ∧
          (visit (assignClassId forest.root) before ⟨given, currId⟩).1 =
            .ok ()) ∧
      ((assignClassIds forest.root ⟨given, currId⟩).1 = .error .outOfFuel →
        2 ^ 32 ≤ forest.root.infos.length) := by
  have hends := assignClassIds_ends forest given currId
  cases hrun : assignClassIds forest.root ⟨given, currId⟩ with
  | mk result s =>
      cases result with
      | ok u =>
          have hdone := Program.wp_ok hrun hends
          refine ⟨?_, ?_, ⟨?_, ?_⟩, fun hfuel => (by cases hfuel)⟩
          · intro s' heq
            cases heq
            exact hdone.1.numbered
          · rintro ⟨c, hc, hrepeated⟩
            exact absurd hrepeated (hdone.2 c hc)
          · rintro ⟨n, hn⟩
            cases hn
          · rintro ⟨before, c, after, hclasses, hrepeated, -⟩
            exact absurd hrepeated (hdone.2 c (by simp [hclasses]))
      | error e =>
          obtain ⟨walked, c, behind, hended⟩ := Program.wp_error hrun hends
          refine ⟨fun s' heq => (by cases heq), fun _ => ⟨e, rfl⟩, ⟨?_, ?_⟩, ?_⟩
          · rintro ⟨n, hn⟩
            have hduplicate := hended.rejected.duplicate.mp
              ⟨n, Except.error.inj hn⟩
            exact ⟨walked, c, behind, hended.place, hduplicate, hended.reached⟩
          · rintro ⟨before, c, after, hclasses, hrepeated, hreached⟩
            obtain ⟨n, rfl⟩ := Program.wp_error hrun
              (assignClassIds_repeated forest given currId hclasses hrepeated
                hreached)
            exact ⟨n, rfl⟩
          · exact fun hfuel => hended.rejected.full (Except.error.inj hfuel)

/-- A class, and two behind it that are both given one number. -/
def classBeforeTwins : ClassForest Unit where
  root := .class 0 .null .null (.class 1 .null .null (.class 2 .null .null
    .null))
  distinct := by decide

/-- The walk ends with an invalid number before it gets to the two classes. -/
theorem classBeforeTwins_invalid :
    RepeatedId classBeforeTwins.root.infos
        (fun a => if a = 0 then 0x10000 else 5) 1 ∧
      ¬∃ n, (assignClassIds classBeforeTwins.root
          ⟨fun a => if a = 0 then 0x10000 else 5, 1⟩).1 =
        .error (duplicateClassId n) := by
  refine ⟨⟨by decide, 2, by decide, by decide, rfl⟩, ?_⟩
  rintro ⟨n, hn⟩
  have hrun : (assignClassIds classBeforeTwins.root
      ⟨fun a => if a = 0 then 0x10000 else 5, 1⟩).1 =
    .error (invalidClassId 0x10000) := rfl
  rw [hrun] at hn
  exact invalidClassId_ne n 0x10000 (Except.error.inj hn)

end Tcng
