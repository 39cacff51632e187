import Tcng.Ext.Tccext

/-! What stays in the list of qdiscs while the lines of a block are read. -/

namespace Tcng.Ext

open History

/-- Every qdisc made so far can be found from the list of the block. -/
def QdiscsReachable (s : TccextBlock) : Prop :=
  ∀ address ∈ s.created, ∃ q ∈ s.qdiscs, q.address = address

/-- References to the same indexes got the same class. -/
def SameClass (s : TccextBlock) : Prop :=
  ∀ e ∈ s.resolved, ∀ e' ∈ s.resolved, e.1 = e'.1 → e.2 = e'.2

/-! ## What lines mention -/

inductive Mention
  | qdisc (index : BitVec 32)
  | ref (ref : ClassRef)
  deriving DecidableEq, Repr

def Mention.index : Mention → BitVec 32
  | qdisc index => index
  | ref r => r.qdisc

def ActionText.mentions : ActionText → List Mention
  | .class first rest => (first :: rest).map .ref
  | .conform _ yes no => yes.mentions ++ no.mentions
  | .count _ counted => counted.mentions
  | _ => []

def Line.mentions : Line → List Mention
  | .qdisc index _ _ => [.qdisc index]
  | .class .. => []
  | .action _ text => text.mentions

/-- A class reference is to a qdisc that was mentioned before, or nothing was
mentioned before. -/
def Known (before : List Mention) : Mention → Prop
  | .qdisc _ => True
  | .ref r => before = [] ∨ r.qdisc ∈ before.map Mention.index

instance (before : List Mention) (m : Mention) : Decidable (Known before m) :=
  match m with
  | .qdisc _ => isTrue trivial
  | .ref _ => inferInstanceAs (Decidable (_ ∨ _))

/-! ## Lists of classes that grow -/

/-- What is found in a list is still found. -/
def Classes.Extends (cs cs' : Classes) : Prop :=
  ∀ index c, cs.findClass index = some c → cs'.findClass index = some c

namespace Classes

theorem findClass_append (cs : Classes) (new : TccextClass)
    (index : BitVec 32) :
    (cs.append new).findClass index =
      match cs.findClass index with
      | some c => some c
      | none => if new.index = index then some new else none := by
  induction cs with
  | nil => rfl
  | cons c classes next _ ih =>
      rw [append, findClass, findClass, ih]
      split
      · rfl
      · cases classes.findClass index <;> rfl

theorem extends_append (cs : Classes) (new : TccextClass) :
    cs.Extends (cs.append new) := by
  intro index c hc
  rw [findClass_append, hc]

theorem findClass_append_new {cs : Classes} {new : TccextClass}
    (hnew : cs.findClass new.index = none) :
    (cs.append new).findClass new.index = some new := by
  rw [findClass_append, hnew]
  exact if_pos rfl

/-- The new class can only be found by its own index. -/
theorem findClass_appendTo {cs cs' : Classes} {parent : BitVec 32}
    {new : TccextClass} (h : cs.appendTo parent new = some cs')
    {index : BitVec 32} (hindex : new.index ≠ index) :
    cs'.findClass index = cs.findClass index := by
  induction cs generalizing cs' with
  | nil => cases h
  | cons c classes next ihclasses ihnext =>
      rw [appendTo] at h
      by_cases hparent : c.index = parent
      · rw [if_pos hparent] at h
        obtain rfl := Option.some.inj h
        rw [findClass, findClass, findClass_append, if_neg hindex]
        cases classes.findClass index <;> rfl
      · rw [if_neg hparent] at h
        cases hsub : classes.appendTo parent new with
        | some sub =>
            rw [hsub] at h
            obtain rfl := Option.some.inj h
            rw [findClass, findClass, ihclasses hsub]
        | none =>
            rw [hsub] at h
            obtain ⟨rest, hrest, rfl⟩ := Option.map_eq_some_iff.mp h
            rw [findClass, findClass, ihnext hrest]

theorem extends_appendTo {cs cs' : Classes} {parent : BitVec 32}
    {new : TccextClass} (h : cs.appendTo parent new = some cs')
    (hnew : cs.findClass new.index = none) : cs.Extends cs' := by
  intro index c hc
  rw [findClass_appendTo h, hc]
  rintro rfl
  rw [hnew] at hc
  cases hc

end Classes

theorem extends_linkClass {cs cs' : Classes} {parent : BitVec 32}
    {new : TccextClass} (h : linkClass cs parent new = .ok cs')
    (hnew : cs.findClass new.index = none) : cs.Extends cs' := by
  rw [linkClass] at h
  split at h
  · obtain rfl := Except.ok.inj h
    exact Classes.extends_append cs new
  · split at h
    · next happend =>
        obtain rfl := Except.ok.inj h
        exact Classes.extends_appendTo happend hnew
    · cases h

/-! ## Changes of the list of qdiscs -/

theorem findQdisc_setClasses (address : Nat) (classes : Classes)
    (qdiscs : List TccextQdisc) (index : BitVec 32) :
    findQdisc (setClasses address classes qdiscs) index =
      (findQdisc qdiscs index).map fun q =>
        if q.address = address then { q with classes } else q := by
  have hindex : ∀ q : TccextQdisc,
      (if q.address = address then { q with classes } else q).index =
        q.index := by
    intro q
    split <;> rfl
  rw [findQdisc, findQdisc, setClasses, List.find?_map]
  congr 2
  funext q
  simp only [Function.comp, hindex]

theorem map_address_setClasses (address : Nat) (classes : Classes)
    (qdiscs : List TccextQdisc) :
    (setClasses address classes qdiscs).map (·.address) =
      qdiscs.map (·.address) := by
  rw [setClasses, List.map_map]
  refine List.map_congr_left fun q _ => ?_
  rw [Function.comp]
  split <;> rfl

theorem map_index_setClasses (address : Nat) (classes : Classes)
    (qdiscs : List TccextQdisc) :
    (setClasses address classes qdiscs).map (·.index) =
      qdiscs.map (·.index) := by
  rw [setClasses, List.map_map]
  refine List.map_congr_left fun q _ => ?_
  rw [Function.comp]
  split <;> rfl

theorem findQdisc_mem {qdiscs : List TccextQdisc} {index : BitVec 32}
    {q : TccextQdisc} (h : findQdisc qdiscs index = some q) :
    q ∈ qdiscs ∧ q.index = index :=
  ⟨List.mem_of_find?_eq_some h, by simpa using List.find?_some h⟩

theorem findQdisc_eq_none {qdiscs : List TccextQdisc} {index : BitVec 32} :
    findQdisc qdiscs index = none ↔ index ∉ qdiscs.map (·.index) := by
  simp [findQdisc]

/-- No qdisc is lost, and those that are listed have the given indexes. -/
structure Kept (indexes : List (BitVec 32)) (s : TccextBlock) : Prop where
  listed : ∀ index, index ∈ s.qdiscs.map (·.index) ↔ index ∈ indexes
  distinct : (s.qdiscs.map (·.address)).Nodup
  allocated : ∀ q ∈ s.qdiscs, q.address < s.allocated
  created : ∀ address, address ∈ s.created ↔
    address ∈ s.qdiscs.map (·.address)
  resolved : ∀ e ∈ s.resolved, ∃ c,
    findQdiscClass s.qdiscs e.1.qdisc e.1.cls = some c ∧ c.address = e.2

/-- A qdisc is lost: objects that are made later have other addresses. -/
def Lost (s : TccextBlock) : Prop :=
  ∃ address ∈ s.created, address < s.allocated ∧
    address ∉ s.qdiscs.map (·.address)

theorem Lost.not_reachable {s : TccextBlock} (h : Lost s) :
    ¬QdiscsReachable s := by
  obtain ⟨address, hcreated, _, hmissing⟩ := h
  intro hreachable
  obtain ⟨q, hq, rfl⟩ := hreachable address hcreated
  exact hmissing (List.mem_map_of_mem hq)

namespace Kept

variable {indexes : List (BitVec 32)} {s : TccextBlock}

theorem reachable (h : Kept indexes s) : QdiscsReachable s := by
  intro address hcreated
  obtain ⟨q, hq, heq⟩ := List.mem_map.mp ((h.created address).mp hcreated)
  exact ⟨q, hq, heq⟩

theorem sameClass (h : Kept indexes s) : SameClass s := by
  intro e he e' he' heq
  obtain ⟨c, hc, hcaddress⟩ := h.resolved e he
  obtain ⟨c', hc', hcaddress'⟩ := h.resolved e' he'
  rw [heq, hc'] at hc
  obtain rfl := Option.some.inj hc
  rw [← hcaddress, hcaddress']

theorem congr (h : Kept indexes s) {indexes' : List (BitVec 32)}
    (hsame : ∀ index, index ∈ indexes ↔ index ∈ indexes') :
    Kept indexes' s :=
  { h with listed := fun index => (h.listed index).trans (hsame index) }

/-- The list of classes of one qdisc grows. -/
theorem setClasses (h : Kept indexes s) {q : TccextQdisc}
    (hq : q ∈ s.qdiscs) {classes : Classes}
    (hextends : q.classes.Extends classes) :
    Kept indexes { s with
      qdiscs := Ext.setClasses q.address classes s.qdiscs
      allocated := s.allocated + 1 } where
  listed index := by
    simp only [map_index_setClasses]
    exact h.listed index
  distinct := by
    simp only [map_address_setClasses]
    exact h.distinct
  allocated p hp := by
    have hmem := List.mem_map_of_mem (f := fun q => q.address) hp
    rw [map_address_setClasses] at hmem
    obtain ⟨old, hold, heq⟩ := List.mem_map.mp hmem
    exact heq ▸ Nat.lt_succ_of_lt (h.allocated old hold)
  created address := by
    simp only [map_address_setClasses]
    exact h.created address
  resolved e he := by
    obtain ⟨c, hc, hcaddress⟩ := h.resolved e he
    refine ⟨c, ?_, hcaddress⟩
    rw [findQdiscClass] at hc ⊢
    rw [findQdisc_setClasses]
    cases hfound : findQdisc s.qdiscs e.1.qdisc with
    | none =>
        rw [hfound] at hc
        cases hc
    | some p =>
        rw [hfound] at hc
        by_cases haddress : p.address = q.address
        · obtain rfl := List.inj_on_of_nodup_map h.distinct
            (findQdisc_mem hfound).1 hq haddress
          simpa using hextends _ c hc
        · simpa [haddress] using hc

theorem record (h : Kept indexes s) {ref : ClassRef} {c : TccextClass}
    (hc : findQdiscClass s.qdiscs ref.qdisc ref.cls = some c) :
    Kept indexes { s with resolved := s.resolved ++ [(ref, c.address)] } :=
  { h with
    resolved := fun e he => by
      rcases List.mem_append.mp he with he | he
      · exact h.resolved e he
      · obtain rfl := List.mem_singleton.mp he
        exact ⟨c, hc, rfl⟩ }

theorem qdiscs_eq_nil (h : Kept indexes s) :
    s.qdiscs = [] ↔ indexes = [] := by
  rw [List.eq_nil_iff_forall_not_mem, List.eq_nil_iff_forall_not_mem]
  constructor
  · intro hnone index hindex
    obtain ⟨q, hq, _⟩ := List.mem_map.mp ((h.listed index).mpr hindex)
    exact hnone q hq
  · exact fun hnone q hq =>
      hnone q.index ((h.listed q.index).mp (List.mem_map_of_mem hq))

/-- The first qdisc of a block. -/
theorem fudgeQdisc (h : Kept [] s) (index : BitVec 32) :
    Kept [index] (Ext.fudgeQdisc s index).2 where
  listed i := by simp [Ext.fudgeQdisc]
  distinct := by simp [Ext.fudgeQdisc]
  allocated q hq := by
    obtain rfl := List.mem_singleton.mp hq
    exact Nat.lt_succ_self _
  created address := by
    have hnone := h.created address
    rw [h.qdiscs_eq_nil.mpr rfl] at hnone
    simp only [Ext.fudgeQdisc, List.mem_append, hnone]
    simp
  resolved e he := by
    obtain ⟨c, hc, _⟩ := h.resolved e he
    rw [h.qdiscs_eq_nil.mpr rfl] at hc
    cases hc

theorem parseQdisc (h : Kept indexes s) {index : BitVec 32} {type : String}
    {parameters : List Parameter} {s' : TccextBlock}
    (hrun : Ext.parseQdisc index type parameters s = .ok s') :
    Kept (indexes ++ [index]) s' := by
  rw [Ext.parseQdisc] at hrun
  cases hfound : findQdisc s.qdiscs index with
  | some q =>
      rw [hfound] at hrun
      cases hrun
  | none =>
      rw [hfound] at hrun
      obtain rfl := Except.ok.inj hrun
      have hnew := findQdisc_eq_none.mp hfound
      refine ⟨fun i => ?_, ?_, ?_, fun address => ?_, fun e he => ?_⟩
      · rw [List.map_cons, List.mem_cons, List.mem_append,
          List.mem_singleton, h.listed i, or_comm]
      · refine List.nodup_cons.mpr ⟨fun hmem => ?_, h.distinct⟩
        obtain ⟨q, hq, heq⟩ := List.mem_map.mp hmem
        exact absurd (h.allocated q hq) (heq ▸ Nat.lt_irrefl _)
      · intro q hq
        rcases List.mem_cons.mp hq with rfl | hq
        · exact Nat.lt_succ_self _
        · exact Nat.lt_succ_of_lt (h.allocated q hq)
      · rw [List.map_cons, List.mem_cons, List.mem_append,
          List.mem_singleton, h.created address, or_comm]
      · obtain ⟨c, hc, hcaddress⟩ := h.resolved e he
        refine ⟨c, ?_, hcaddress⟩
        rw [findQdiscClass] at hc ⊢
        have hother : index ≠ e.1.qdisc := by
          rintro rfl
          rw [hfound] at hc
          cases hc
        rw [findQdisc, List.find?_cons_of_neg (by simpa using hother)]
        exact hc

theorem parseClass (h : Kept indexes s) {index : BitVec 32}
    {parameters : List Parameter} {s' : TccextBlock}
    (hrun : Ext.parseClass index parameters s = .ok s') :
    Kept indexes s' := by
  rw [Ext.parseClass] at hrun
  obtain ⟨qdisc, _, hrun⟩ := bind_eq_ok.mp hrun
  cases hqdiscs : s.qdiscs with
  | nil =>
      rw [hqdiscs] at hrun
      cases hrun
  | cons top rest =>
      rw [hqdiscs] at hrun
      have hmem : top ∈ s.qdiscs := by simp [hqdiscs]
      by_cases hduplicate : (top.classes.findClass index).isSome = true
      · simp only [hduplicate, if_true] at hrun
        cases hrun
      · have hnew := Option.not_isSome_iff_eq_none.mp hduplicate
        simp only [if_neg hduplicate] at hrun
        obtain ⟨classes, hclasses, hrun⟩ := bind_eq_ok.mp hrun
        obtain rfl := Except.ok.inj hrun
        rw [← hqdiscs]
        exact h.setClasses hmem (extends_linkClass hclasses hnew)

/-- The class is made where the qdisc is listed. -/
theorem appendClass (h : Kept indexes s) {ref : ClassRef} {q : TccextQdisc}
    (hq : findQdisc s.qdiscs ref.qdisc = some q)
    (hnew : q.classes.findClass ref.cls = none) {new : TccextClass}
    (hindex : new.index = ref.cls) :
    Kept indexes { s with
      qdiscs := Ext.setClasses q.address (q.classes.append new) s.qdiscs
      allocated := s.allocated + 1
      resolved := s.resolved ++ [(ref, new.address)] } := by
  have hset := h.setClasses (findQdisc_mem hq).1
    (Classes.extends_append q.classes new)
  have hfound : findQdiscClass
      (Ext.setClasses q.address (q.classes.append new) s.qdiscs)
      ref.qdisc ref.cls = some new := by
    rw [← hindex] at hnew ⊢
    rw [findQdiscClass, findQdisc_setClasses, hq]
    simpa using Classes.findClass_append_new hnew
  exact hset.record hfound

end Kept

/-! ## Objects that are made later -/

/-- Everything that was made stays on record, and what comes into the list was
made in between. -/
structure Later (s s' : TccextBlock) : Prop where
  created : s.created ⊆ s'.created
  allocated : s.allocated ≤ s'.allocated
  listed : ∀ q ∈ s'.qdiscs, q.address ∈ s.qdiscs.map (·.address) ∨
    s.allocated ≤ q.address

theorem Lost.later {s s' : TccextBlock} (h : Lost s) (hlater : Later s s') :
    Lost s' := by
  obtain ⟨address, hcreated, hlt, hmissing⟩ := h
  refine ⟨address, hlater.created hcreated,
    Nat.lt_of_lt_of_le hlt hlater.allocated, fun hmem => ?_⟩
  obtain ⟨q, hq, rfl⟩ := List.mem_map.mp hmem
  rcases hlater.listed q hq with hold | hnew
  · exact hmissing hold
  · exact Nat.not_lt.mpr hnew hlt

namespace Later

theorem refl (s : TccextBlock) : Later s s :=
  ⟨List.Subset.refl _, Nat.le_refl _, fun _ hq => .inl (List.mem_map_of_mem hq)⟩

theorem trans {s s' s'' : TccextBlock} (h : Later s s') (h' : Later s' s'') :
    Later s s'' := by
  refine ⟨List.Subset.trans h.created h'.created, h.allocated.trans h'.allocated, ?_⟩
  intro q hq
  rcases h'.listed q hq with hold | hnew
  · obtain ⟨p, hp, heq⟩ := List.mem_map.mp hold
    exact heq ▸ h.listed p hp
  · exact .inr (h.allocated.trans hnew)

theorem setClasses (s : TccextBlock) (address : Nat) (classes : Classes) :
    Later s { s with
      qdiscs := Ext.setClasses address classes s.qdiscs
      allocated := s.allocated + 1 } := by
  refine ⟨List.Subset.refl _, Nat.le_succ _, fun q hq => .inl ?_⟩
  rw [← map_address_setClasses address classes]
  exact List.mem_map_of_mem hq

theorem fudgeQdisc (s : TccextBlock) (index : BitVec 32) :
    Later s (Ext.fudgeQdisc s index).2 := by
  refine ⟨List.subset_append_left _ _, Nat.le_succ _, fun q hq => .inr ?_⟩
  obtain rfl := List.mem_singleton.mp hq
  exact Nat.le_refl _

theorem resolveClass (ref : ClassRef) (s : TccextBlock) :
    Later s (Ext.resolveClass ref s).2 := by
  rw [Ext.resolveClass]
  cases findQdiscClass s.qdiscs ref.qdisc ref.cls with
  | some found => exact { refl s with }
  | none =>
      have hset : ∀ (q : TccextQdisc) s', Later s s' →
          Later s { s' with
            qdiscs := Ext.setClasses q.address
              (q.classes.append ⟨s'.allocated, q.address, ref.cls, none, []⟩)
              s'.qdiscs
            allocated := s'.allocated + 1 } := fun q s' h =>
        h.trans (Later.setClasses s' q.address _)
      simp only [fudgeClass]
      cases findQdisc s.qdiscs ref.qdisc with
      | some q => exact { hset q s (refl s) with }
      | none =>
          exact { hset (Ext.fudgeQdisc s ref.qdisc).1 _
            (fudgeQdisc s ref.qdisc) with }

theorem parseQdisc {index : BitVec 32} {type : String}
    {parameters : List Parameter} {s s' : TccextBlock}
    (hrun : Ext.parseQdisc index type parameters s = .ok s') :
    Later s s' := by
  rw [Ext.parseQdisc] at hrun
  split at hrun
  · cases hrun
  · obtain rfl := Except.ok.inj hrun
    refine ⟨List.subset_append_left _ _, Nat.le_succ _, fun q hq => ?_⟩
    rcases List.mem_cons.mp hq with rfl | hq
    · exact .inr (Nat.le_refl _)
    · exact .inl (List.mem_map_of_mem hq)

theorem parseClass {index : BitVec 32} {parameters : List Parameter}
    {s s' : TccextBlock}
    (hrun : Ext.parseClass index parameters s = .ok s') : Later s s' := by
  rw [Ext.parseClass] at hrun
  obtain ⟨qdisc, _, hrun⟩ := bind_eq_ok.mp hrun
  split at hrun
  · cases hrun
  · split at hrun
    · cases hrun
    · obtain ⟨classes, _, hrun⟩ := bind_eq_ok.mp hrun
      obtain rfl := Except.ok.inj hrun
      exact setClasses s _ classes

end Later

/-! ## One class reference -/

theorem Kept.resolveClass {indexes : List (BitVec 32)} {s : TccextBlock}
    (h : Kept indexes s) {ref : ClassRef}
    (hknown : indexes = [] ∨ ref.qdisc ∈ indexes) :
    Kept (indexes ++ [ref.qdisc]) (Ext.resolveClass ref s).2 := by
  have hlisted : ref.qdisc ∈ indexes → ∀ index,
      index ∈ indexes ↔ index ∈ indexes ++ [ref.qdisc] := by
    intro hmem index
    simp only [List.mem_append, List.mem_singleton]
    exact ⟨.inl, fun hindex => hindex.elim id (· ▸ hmem)⟩
  rw [Ext.resolveClass]
  cases hfound : findQdisc s.qdiscs ref.qdisc with
  | some q =>
      have hmem : ref.qdisc ∈ indexes := by
        rw [← h.listed, ← (findQdisc_mem hfound).2]
        exact List.mem_map_of_mem (findQdisc_mem hfound).1
      have hclass : findQdiscClass s.qdiscs ref.qdisc ref.cls =
          q.classes.findClass ref.cls := by
        rw [findQdiscClass, hfound]
      cases hc : q.classes.findClass ref.cls with
      | some c =>
          rw [hc] at hclass
          rw [hclass]
          exact (h.record hclass).congr (hlisted hmem)
      | none =>
          rw [hc] at hclass
          rw [hclass]
          simp only [fudgeClass, hfound]
          exact (h.appendClass hfound hc rfl).congr (hlisted hmem)
  | none =>
      have hempty : indexes = [] := hknown.resolve_right fun hmem =>
        findQdisc_eq_none.mp hfound ((h.listed _).mpr hmem)
      have hclass : findQdiscClass s.qdiscs ref.qdisc ref.cls = none := by
        rw [findQdiscClass, hfound]
      subst hempty
      rw [hclass]
      simp only [fudgeClass, hfound]
      exact (h.fudgeQdisc ref.qdisc).appendClass
        (by simp [Ext.fudgeQdisc, findQdisc]) rfl rfl

/-- `fudge_qdisc` leaves nothing else in the list. -/
theorem Kept.lost_resolveClass {indexes : List (BitVec 32)} {s : TccextBlock}
    (h : Kept indexes s) {ref : ClassRef}
    (hunknown : ¬(indexes = [] ∨ ref.qdisc ∈ indexes)) :
    Lost (Ext.resolveClass ref s).2 := by
  rw [not_or] at hunknown
  obtain ⟨hsome, hnew⟩ := hunknown
  have hfound : findQdisc s.qdiscs ref.qdisc = none :=
    findQdisc_eq_none.mpr fun hmem => hnew ((h.listed _).mp hmem)
  have hclass : findQdiscClass s.qdiscs ref.qdisc ref.cls = none := by
    rw [findQdiscClass, hfound]
  obtain ⟨q, hq⟩ := List.exists_mem_of_ne_nil _
    (mt h.qdiscs_eq_nil.mp hsome)
  have hlost : Lost (Ext.fudgeQdisc s ref.qdisc).2 := by
    have hlt := h.allocated q hq
    refine ⟨q.address, ?_, Nat.lt_succ_of_lt hlt, ?_⟩
    · exact List.mem_append_left _
        ((h.created _).mpr (List.mem_map_of_mem hq))
    · simpa [Ext.fudgeQdisc] using Nat.ne_of_lt hlt
  have hafter := hlost.later (Later.setClasses
    (Ext.fudgeQdisc s ref.qdisc).2 s.allocated
    (.cons ⟨s.allocated + 1, s.allocated, ref.cls, none, []⟩ .nil .nil))
  rw [Ext.resolveClass, hclass]
  simp only [fudgeClass, hfound]
  exact hafter

/-! ## Runs -/

/-- Either all that was mentioned was known and is kept, or something is
lost. -/
def Followed (before : List Mention) (s : TccextBlock) : Prop :=
  Each Known before ∧ Kept (before.map Mention.index) s ∨
    ¬Each Known before ∧ Lost s

theorem Followed.later {before : List Mention} {s s' : TccextBlock}
    (h : Followed before s) (hlater : Later s s')
    (hkept : ∀ indexes, Kept indexes s → Kept indexes s') :
    Followed before s' :=
  h.imp (And.imp_right (hkept _)) (And.imp_right (·.later hlater))

theorem Followed.resolveClass {before : List Mention} {s : TccextBlock}
    (h : Followed before s) (ref : ClassRef) :
    Followed (before ++ [.ref ref]) (Ext.resolveClass ref s).2 := by
  rw [Followed, each_concat, List.map_append]
  rcases h with ⟨heach, hkept⟩ | ⟨heach, hlost⟩
  · have hknown : Known before (.ref ref) ↔
        before.map Mention.index = [] ∨
          ref.qdisc ∈ before.map Mention.index := by
      rw [List.map_eq_nil_iff]
      rfl
    by_cases hcase : Known before (.ref ref)
    · exact .inl ⟨⟨heach, hcase⟩, hkept.resolveClass (hknown.mp hcase)⟩
    · exact .inr ⟨fun h => hcase h.2,
        hkept.lost_resolveClass fun h => hcase (hknown.mpr h)⟩
  · exact .inr ⟨fun h => heach h.1, hlost.later (Later.resolveClass ref s)⟩

theorem Followed.parseClassList {before : List Mention} {s : TccextBlock}
    (h : Followed before s) (refs : List ClassRef) :
    Followed (before ++ refs.map .ref) (Ext.parseClassList refs s).2 := by
  induction refs generalizing before s with
  | nil => simpa [Ext.parseClassList] using h
  | cons ref refs ih =>
      have hrest := ih (h.resolveClass ref)
      rw [List.append_assoc] at hrest
      exact hrest

theorem Followed.parseAction {buckets : List TccextBucket}
    {text : ActionText} {before : List Mention} {s s' : TccextBlock}
    {action : TccextAction} (h : Followed before s)
    (hrun : Ext.parseAction buckets text s = .ok (action, s')) :
    Followed (before ++ text.mentions) s' := by
  induction text generalizing before s s' action with
  | action next =>
      obtain ⟨_, rfl⟩ := Prod.mk.inj (Except.ok.inj hrun)
      simpa [ActionText.mentions] using h
  | «class» first rest =>
      obtain ⟨_, rfl⟩ := Prod.mk.inj (Except.ok.inj hrun)
      exact h.parseClassList (first :: rest)
  | drop =>
      obtain ⟨_, rfl⟩ := Prod.mk.inj (Except.ok.inj hrun)
      simpa [ActionText.mentions] using h
  | unspec =>
      obtain ⟨_, rfl⟩ := Prod.mk.inj (Except.ok.inj hrun)
      simpa [ActionText.mentions] using h
  | conform bucket yes no ihyes ihno =>
      rw [Ext.parseAction] at hrun
      obtain ⟨_, _, hrun⟩ := bind_eq_ok.mp hrun
      obtain ⟨⟨_, s₁⟩, hyes, hrun⟩ := bind_eq_ok.mp hrun
      obtain ⟨⟨_, s₂⟩, hno, hrun⟩ := bind_eq_ok.mp hrun
      obtain ⟨_, rfl⟩ := Prod.mk.inj (Except.ok.inj hrun)
      rw [ActionText.mentions, ← List.append_assoc]
      exact ihno (ihyes h hyes) hno
  | count bucket counted ih =>
      rw [Ext.parseAction] at hrun
      obtain ⟨_, _, hrun⟩ := bind_eq_ok.mp hrun
      obtain ⟨⟨_, s₁⟩, hcounted, hrun⟩ := bind_eq_ok.mp hrun
      obtain ⟨_, rfl⟩ := Prod.mk.inj (Except.ok.inj hrun)
      exact ih h hcounted

theorem Followed.parseActions {buckets : List TccextBucket}
    {index : BitVec 32} {text : ActionText} {before : List Mention}
    {s s' : TccextBlock} (h : Followed before s)
    (hrun : Ext.parseActions buckets index text s = .ok s') :
    Followed (before ++ text.mentions) s' := by
  rw [Ext.parseActions] at hrun
  split at hrun
  · cases hrun
  · split at hrun
    · cases hrun
    · obtain ⟨⟨action, s₁⟩, haction, hrun⟩ := bind_eq_ok.mp hrun
      have hafter := h.parseAction haction
      have hlist : ∀ actions cyclic allocated, s₁.allocated ≤ allocated →
          Followed (before ++ text.mentions)
            { s₁ with actions, cyclic, allocated } := by
        intro actions cyclic allocated hle
        refine hafter.later ⟨List.Subset.refl _, hle, fun _ hq =>
          .inl (List.mem_map_of_mem hq)⟩ fun indexes hkept => ?_
        exact { hkept with
          allocated := fun q hq =>
            Nat.lt_of_lt_of_le (hkept.allocated q hq) hle }
      cases action with
      | found found =>
          cases found with
          | none => cases hrun
          | some address =>
              obtain rfl := Except.ok.inj hrun
              exact hlist _ _ _ (Nat.le_refl _)
      | _ =>
          obtain rfl := Except.ok.inj hrun
          exact hlist _ _ _ (Nat.le_succ _)

theorem Followed.parseLine {buckets : List TccextBucket} {line : Line}
    {before : List Mention} {s s' : TccextBlock} (h : Followed before s)
    (hrun : Ext.parseLine buckets line s = .ok s') :
    Followed (before ++ line.mentions) s' := by
  cases line with
  | qdisc index type parameters =>
      have hlater := Later.parseQdisc hrun
      rw [Followed, Line.mentions, each_concat, List.map_append]
      rcases h with ⟨heach, hkept⟩ | ⟨heach, hlost⟩
      · exact .inl ⟨⟨heach, trivial⟩, hkept.parseQdisc hrun⟩
      · exact .inr ⟨fun h => heach h.1, hlost.later hlater⟩
  | «class» index parameters =>
      rw [Line.mentions, List.append_nil]
      exact h.later (Later.parseClass hrun) fun _ hkept =>
        hkept.parseClass hrun
  | action index text => exact h.parseActions hrun

theorem Followed.parseLines {buckets : List TccextBucket}
    {lines : List Line} {before : List Mention} {s s' : TccextBlock}
    (h : Followed before s)
    (hrun : Ext.parseLines buckets lines s = .ok s') :
    Followed (before ++ lines.flatMap Line.mentions) s' := by
  induction lines generalizing before s with
  | nil =>
      obtain rfl := Except.ok.inj hrun
      simpa using h
  | cons line lines ih =>
      rw [Ext.parseLines] at hrun
      obtain ⟨s₁, hline, hrun⟩ := bind_eq_ok.mp hrun
      rw [List.flatMap_cons, ← List.append_assoc]
      exact ih (h.parseLine hline) hrun

theorem kept_empty : Kept [] .empty :=
  ⟨by simp [TccextBlock.empty], by simp [TccextBlock.empty],
    by simp [TccextBlock.empty], by simp [TccextBlock.empty],
    by simp [TccextBlock.empty]⟩

theorem parseLines_iff (buckets : List TccextBucket) (lines : List Line)
    {s : TccextBlock} (hrun : parseLines buckets lines .empty = .ok s) :
    QdiscsReachable s ∧ SameClass s ↔
      Each Known (lines.flatMap Line.mentions) := by
  have hstart : Followed [] .empty := .inl ⟨each_nil, kept_empty⟩
  rcases hstart.parseLines hrun with ⟨heach, hkept⟩ | ⟨heach, hlost⟩
  · exact ⟨fun _ => heach, fun _ => ⟨hkept.reachable, hkept.sameClass⟩⟩
  · exact ⟨fun h => absurd h.1 hlost.not_reachable, fun h => absurd h heach⟩

private def prioLines : List Line :=
  [.qdisc 1 "prio" [⟨"bands", 3⟩], .class 1 [],
    .action 1 (.class ⟨1, 1⟩ [⟨1, 2⟩])]

/-- One class has its line, the other one is only referred to. -/
private def prioBlock : TccextBlock where
  qdiscs := [⟨0, some "prio", 1, [⟨"bands", 3⟩],
    .cons ⟨1, 0, 1, none, []⟩ .nil (.cons ⟨2, 0, 2, none, []⟩ .nil .nil)⟩]
  actions := [⟨3, 1, .class [1, 2]⟩]
  cyclic := false
  allocated := 4
  created := [0]
  resolved := [(⟨1, 1⟩, 1), (⟨1, 2⟩, 2)]

theorem parseLines_prio :
    parseLines [] prioLines .empty = .ok prioBlock ∧
    (QdiscsReachable prioBlock ∧ SameClass prioBlock ↔
      Each Known (prioLines.flatMap Line.mentions)) :=
  ⟨rfl, parseLines_iff [] prioLines rfl⟩

/-- Classes of two qdiscs in turn, neither of which has a line. -/
private def inTurn : List Line :=
  [.action 1 (.class ⟨1, 1⟩ []), .action 2 (.class ⟨2, 1⟩ []),
    .action 3 (.class ⟨1, 1⟩ [])]

theorem parseLines_inTurn :
    (¬∀ buckets lines s, parseLines buckets lines .empty = .ok s →
      QdiscsReachable s) ∧
    ¬∀ buckets lines s, parseLines buckets lines .empty = .ok s →
      SameClass s := by
  constructor
  · intro h
    obtain ⟨q, hq, haddress⟩ := h [] inTurn _ rfl 0 (by decide)
    revert haddress
    obtain rfl := List.mem_singleton.mp hq
    decide
  · intro h
    have hsame := h [] inTurn _ rfl (⟨1, 1⟩, 1) (by decide) (⟨1, 1⟩, 7)
      (by decide) rfl
    exact absurd hsame (by decide)

end Tcng.Ext
