import Mathlib.Data.List.Pairwise
import Tcng.Var

/-! Variables are found in the innermost scope that has one of the name. -/

namespace Tcng

/-! ## Scopes and lists of equal names -/

/-- What scopes depend on in a variable. -/
structure VarLink where
  hash : String
  scope : Nat
  nextWithName : List VarId

def Var.link {δ : Type} (var : Var δ) : VarLink :=
  ⟨var.hash, var.scope, var.nextWithName⟩

namespace Scopes

abbrev Links := VarId → Option VarLink

def named (links : Links) (name : String) (id : VarId) : Bool :=
  (links id).any (·.hash = name)

/-- All variables of a name, innermost scope first. -/
def withName (links : Links) (scopes : List (List VarId)) (name : String) :
    List VarId :=
  scopes.flatten.filter (named links name)

/-- No name occurs twice in a scope, and the list of a name goes on with what
the scopes outside have. -/
def Ordered (links : Links) : List (List VarId) → Prop
  | [] => True
  | scope :: outer =>
      (∀ id ∈ scope, ∃ name, links id =
        some ⟨name, outer.length, withName links outer name⟩) ∧
      scope.Pairwise (fun id id' => ∀ name,
        ¬(named links name id = true ∧ named links name id' = true)) ∧
      Ordered links outer

variable {links links' : Links}

theorem withName_cons (scope : List VarId) (outer : List (List VarId))
    (name : String) : withName links (scope :: outer) name =
      scope.filter (named links name) ++ withName links outer name := by
  simp only [withName, List.flatten_cons, List.filter_append]

theorem filter_named_eq_nil {scope : List VarId} {name : String}
    (h : ∀ id ∈ scope, ¬named links name id = true) :
    scope.filter (named links name) = [] :=
  List.filter_eq_nil_iff.mpr h

theorem named_eq {id : VarId} {name name' : String} {scope : Nat}
    {next : List VarId} (hlink : links id = some ⟨name, scope, next⟩) :
    named links name' id = decide (name = name') := by
  rw [named, hlink]
  rfl

theorem withName_congr {scopes : List (List VarId)}
    (h : ∀ scope ∈ scopes, ∀ id ∈ scope, links' id = links id)
    (name : String) :
    withName links' scopes name = withName links scopes name := by
  apply List.filter_congr
  intro id hmem
  obtain ⟨scope, hscope, hid⟩ := List.mem_flatten.mp hmem
  rw [named, named, h scope hscope id hid]

theorem Ordered.isSome {scopes : List (List VarId)} (h : Ordered links scopes)
    {scope : List VarId} (hscope : scope ∈ scopes) {id : VarId}
    (hid : id ∈ scope) : ∃ link, links id = some link := by
  induction scopes with
  | nil => cases hscope
  | cons first outer ih =>
      obtain ⟨hfirst, -, hrest⟩ := h
      rcases List.mem_cons.mp hscope with rfl | hscope
      · obtain ⟨name, hlink⟩ := hfirst id hid
        exact ⟨_, hlink⟩
      · exact ih hrest hscope

theorem Ordered.congr {scopes : List (List VarId)} (h : Ordered links scopes)
    (hsame : ∀ scope ∈ scopes, ∀ id ∈ scope, links' id = links id) :
    Ordered links' scopes := by
  induction scopes with
  | nil => trivial
  | cons scope outer ih =>
      obtain ⟨hscope, hpairwise, hrest⟩ := h
      have houter : ∀ sc ∈ outer, ∀ id ∈ sc, links' id = links id :=
        fun sc hsc => hsame sc (List.mem_cons_of_mem _ hsc)
      refine ⟨?_, ?_, ih hrest houter⟩
      · intro id hid
        obtain ⟨name, hlink⟩ := hscope id hid
        refine ⟨name, ?_⟩
        rw [hsame scope List.mem_cons_self id hid, hlink,
          withName_congr houter]
      · apply hpairwise.imp_of_mem
        intro id id' hid hid' hdistinct name
        have hnamed := hsame scope List.mem_cons_self
        simp only [named, hnamed id hid, hnamed id' hid']
        exact hdistinct name

/-- Variables of one scope differ from those of the scopes outside. -/
theorem Ordered.not_mem_outer {scope : List VarId} {outer : List (List VarId)}
    (h : Ordered links (scope :: outer)) {id : VarId} (hid : id ∈ scope)
    {sc : List VarId} (hsc : sc ∈ outer) : id ∉ sc := by
  intro hmem
  obtain ⟨name, hlink⟩ := h.1 id hid
  have hlt : ∀ scopes : List (List VarId), Ordered links scopes →
      sc ∈ scopes → ∃ link, links id = some link ∧
        link.scope < scopes.length := by
    intro scopes hordered hsc
    induction scopes with
    | nil => cases hsc
    | cons first rest ih =>
        obtain ⟨hfirst, -, hrest⟩ := hordered
        rcases List.mem_cons.mp hsc with rfl | hsc
        · obtain ⟨name', hlink'⟩ := hfirst id hmem
          exact ⟨_, hlink', Nat.lt_succ_self _⟩
        · obtain ⟨link, hlink', hlt⟩ := ih hrest hsc
          exact ⟨link, hlink', Nat.lt_succ_of_lt hlt⟩
  obtain ⟨link, hlink', hlt⟩ := hlt outer h.2.2 hsc
  rw [hlink] at hlink'
  cases hlink'
  exact Nat.lt_irrefl _ hlt

theorem withName_append (pre scopes : List (List VarId)) (name : String) :
    withName links (pre ++ scopes) name =
      withName links pre name ++ withName links scopes name := by
  simp only [withName, List.flatten_append, List.filter_append]

theorem withName_eq_nil {scopes : List (List VarId)} {name : String}
    (h : ∀ scope ∈ scopes, ∀ id ∈ scope, ¬named links name id = true) :
    withName links scopes name = [] := by
  apply List.filter_eq_nil_iff.mpr
  intro id hmem
  obtain ⟨scope, hscope, hid⟩ := List.mem_flatten.mp hmem
  exact h scope hscope id hid

section

variable {pre outer : List (List VarId)} {scope : List VarId} {id : VarId}
  {name : String}

/-- A variable that is new in `scope`. -/
private def withNew (links : Links) (outer : List (List VarId)) (id : VarId)
    (name : String) : Links :=
  Function.update links id
    (some ⟨name, outer.length, withName links outer name⟩)

private theorem withNew_ne {id' : VarId} (h : id' ≠ id) :
    withNew links outer id name id' = links id' :=
  Function.update_of_ne h _ _

private theorem withNew_same : withNew links outer id name id =
    some ⟨name, outer.length, withName links outer name⟩ :=
  Function.update_self _ _ _

/-- The list of the new variable starts with it, the others are as before. -/
theorem withName_create (hnew : ∀ sc ∈ pre ++ scope :: outer, id ∉ sc)
    (hpre : ∀ sc ∈ pre, ∀ id ∈ sc, ¬named links name id = true)
    (hscope : ∀ id ∈ scope, ¬named links name id = true) (name' : String) :
    withName (withNew links outer id name) (pre ++ (scope ++ [id]) :: outer)
        name' =
      if name' = name then id :: withName links (pre ++ scope :: outer) name
      else withName links (pre ++ scope :: outer) name' := by
  have hsame : ∀ sc ∈ pre ++ scope :: outer, ∀ id' ∈ sc,
      withNew links outer id name id' = links id' := by
    intro sc hsc id' hid'
    apply withNew_ne
    rintro rfl
    exact hnew sc hsc hid'
  have hmem : scope ∈ pre ++ scope :: outer :=
    List.mem_append_right _ List.mem_cons_self
  have hfilter : scope.filter (named (withNew links outer id name) name') =
      scope.filter (named links name') := by
    apply List.filter_congr
    intro id' hid'
    rw [named, named, hsame scope hmem id' hid']
  rw [withName_append, withName_cons, List.filter_append, hfilter,
    withName_congr fun sc hsc => hsame sc (List.mem_append_left _ hsc),
    withName_congr fun sc hsc => hsame sc
      (List.mem_append_right _ (List.mem_cons_of_mem _ hsc))]
  have hnamed : named (withNew links outer id name) name' id =
      decide (name = name') := named_eq withNew_same
  split
  · rename_i heq
    subst heq
    rw [withName_append, withName_cons, withName_eq_nil hpre,
      filter_named_eq_nil hscope]
    simp [hnamed]
  · rename_i hne
    have hne' : ¬name = name' := fun heq => hne heq.symm
    rw [withName_append, withName_cons]
    simp [hnamed, hne']

theorem Ordered.create (h : Ordered links (pre ++ scope :: outer))
    (hnew : ∀ sc ∈ pre ++ scope :: outer, id ∉ sc)
    (hpre : ∀ sc ∈ pre, ∀ id ∈ sc, ¬named links name id = true)
    (hscope : ∀ id ∈ scope, ¬named links name id = true) :
    Ordered (withNew links outer id name)
      (pre ++ (scope ++ [id]) :: outer) := by
  induction pre with
  | nil =>
      obtain ⟨hlinks, hpairwise, hrest⟩ := h
      have hsame : ∀ sc ∈ scope :: outer, ∀ id' ∈ sc,
          withNew links outer id name id' = links id' := by
        intro sc hsc id' hid'
        apply withNew_ne
        rintro rfl
        exact hnew sc hsc hid'
      have houter : ∀ sc ∈ outer, ∀ id' ∈ sc,
          withNew links outer id name id' = links id' :=
        fun sc hsc => hsame sc (List.mem_cons_of_mem _ hsc)
      refine ⟨?_, ?_, hrest.congr houter⟩
      · intro id' hid'
        rcases List.mem_append.mp hid' with hid' | hid'
        · obtain ⟨name', hlink⟩ := hlinks id' hid'
          refine ⟨name', ?_⟩
          rw [hsame scope List.mem_cons_self id' hid', hlink,
            withName_congr houter]
        · rw [List.mem_singleton.mp hid']
          exact ⟨name, by rw [withNew_same, withName_congr houter]⟩
      · apply List.pairwise_append.mpr
        refine ⟨?_, List.pairwise_singleton _ _, ?_⟩
        · apply hpairwise.imp_of_mem
          intro id₁ id₂ h₁ h₂ hdistinct name'
          have hlink := hsame scope List.mem_cons_self
          simp only [named, hlink id₁ h₁, hlink id₂ h₂]
          exact hdistinct name'
        · intro id₁ h₁ id₂ h₂ name' hnamed
          rw [List.mem_singleton.mp h₂, named_eq withNew_same,
            decide_eq_true_eq] at hnamed
          obtain ⟨hnamed₁, heq⟩ := hnamed
          subst heq
          rw [named, hsame scope List.mem_cons_self id₁ h₁] at hnamed₁
          exact hscope id₁ h₁ hnamed₁
  | cons first pre ih =>
      obtain ⟨hlinks, hpairwise, hrest⟩ := h
      have hnew' : ∀ sc ∈ pre ++ scope :: outer, id ∉ sc :=
        fun sc hsc => hnew sc (List.mem_cons_of_mem _ hsc)
      have hpre' : ∀ sc ∈ pre, ∀ id ∈ sc, ¬named links name id = true :=
        fun sc hsc => hpre sc (List.mem_cons_of_mem _ hsc)
      have hsame : ∀ id' ∈ first,
          withNew links outer id name id' = links id' := by
        intro id' hid'
        apply withNew_ne
        rintro rfl
        exact hnew first List.mem_cons_self hid'
      refine ⟨?_, ?_, ih hrest hnew' hpre'⟩
      · intro id' hid'
        obtain ⟨name', hlink⟩ := hlinks id' hid'
        have hne : ¬name' = name := by
          rintro rfl
          apply hpre first List.mem_cons_self id' hid'
          rw [named_eq hlink]
          exact decide_eq_true rfl
        have hlist := withName_create hnew' hpre' hscope name'
        rw [if_neg hne] at hlist
        refine ⟨name', ?_⟩
        rw [hsame id' hid', hlink]
        simp only [Option.some.injEq, VarLink.mk.injEq, true_and]
        exact ⟨by simp, hlist.symm⟩
      · apply hpairwise.imp_of_mem
        intro id₁ id₂ h₁ h₂ hdistinct name'
        simp only [named, hsame id₁ h₁, hsame id₂ h₂]
        exact hdistinct name'

end

/-! ### The end of a scope -/

/-- The lists of names while the variables `ids` of the innermost scope are
still there. -/
structure Ending (links : Links) (hash : String → List VarId)
    (ids : List VarId) (outer : List (List VarId)) : Prop where
  ordered : Ordered links (ids :: outer)
  hash : ∀ name, hash name = withName links (ids :: outer) name

theorem Ending.next {hash : String → List VarId} {id : VarId}
    {ids : List VarId} {outer : List (List VarId)} {name : String}
    {scope : Nat} {next : List VarId}
    (h : Ending links hash (id :: ids) outer)
    (hlink : links id = some ⟨name, scope, next⟩) :
    Ending (Function.update links id none) (Function.update hash name next)
      ids outer := by
  obtain ⟨⟨hlinks, hpairwise, hrest⟩, hhash⟩ := h
  have hnotMem : ∀ id' ∈ ids, id' ≠ id := by
    rintro id' hid' rfl
    obtain ⟨name', hlink'⟩ := hlinks id' List.mem_cons_self
    have hnamed : named links name' id' = true := by
      rw [named_eq hlink']
      exact decide_eq_true rfl
    exact (List.pairwise_cons.mp hpairwise).1 id' hid' name' ⟨hnamed, hnamed⟩
  have hids : ∀ id' ∈ ids, Function.update links id none id' = links id' :=
    fun id' hid' => Function.update_of_ne (hnotMem id' hid') _ _
  have hordered : Ordered links (ids :: outer) :=
    ⟨fun id' hid' => hlinks id' (List.mem_cons_of_mem _ hid'),
      (List.pairwise_cons.mp hpairwise).2, hrest⟩
  have hsame : ∀ sc ∈ ids :: outer, ∀ id' ∈ sc,
      Function.update links id none id' = links id' := by
    intro sc hsc id' hid'
    rcases List.mem_cons.mp hsc with rfl | hsc
    · exact hids id' hid'
    · apply Function.update_of_ne
      rintro rfl
      exact Ordered.not_mem_outer ⟨hlinks, hpairwise, hrest⟩
        List.mem_cons_self hsc hid'
  refine ⟨hordered.congr hsame, ?_⟩
  intro name'
  rw [withName_congr hsame]
  obtain ⟨name₀, hlink₀⟩ := hlinks id List.mem_cons_self
  rw [hlink] at hlink₀
  cases hlink₀
  by_cases hname : name' = name
  · subst hname
    rw [Function.update_self, withName_cons, filter_named_eq_nil]
    · rfl
    · intro id' hid' hnamed
      have hfirst : named links name' id = true := by
        rw [named_eq hlink]
        exact decide_eq_true rfl
      exact (List.pairwise_cons.mp hpairwise).1 id' hid' name'
        ⟨hfirst, hnamed⟩
  · rw [Function.update_of_ne hname, hhash, withName_cons, withName_cons,
      List.filter_cons, named_eq hlink]
    simp [Ne.symm hname]

/-- `id` is the one variable of the name in the innermost scope that has any. -/
def Innermost (links : Links) (scopes : List (List VarId)) (name : String)
    (id : VarId) : Prop :=
  ∃ pre scope outer, scopes = pre ++ scope :: outer ∧
    (∀ sc ∈ pre, ∀ id ∈ sc, ¬named links name id = true) ∧
    id ∈ scope ∧ named links name id = true ∧
    ∀ id' ∈ scope, named links name id' = true → id' = id

theorem Ordered.innermost {scopes : List (List VarId)}
    (h : Ordered links scopes) {name : String} {id : VarId}
    {rest : List VarId} (hlist : withName links scopes name = id :: rest) :
    Innermost links scopes name id := by
  induction scopes with
  | nil => cases hlist
  | cons scope outer ih =>
      obtain ⟨-, hpairwise, hrest⟩ := h
      rw [withName_cons] at hlist
      cases hfirst : scope.filter (named links name) with
      | nil =>
          rw [hfirst] at hlist
          obtain ⟨pre, sc, rest', hscopes, hpre, hinnermost⟩ := ih hrest hlist
          refine ⟨scope :: pre, sc, rest', by rw [hscopes]; rfl, ?_, hinnermost⟩
          intro sc' hsc'
          rcases List.mem_cons.mp hsc' with rfl | hsc'
          · exact List.filter_eq_nil_iff.mp hfirst
          · exact hpre sc' hsc'
      | cons id' ids =>
          rw [hfirst, List.cons_append] at hlist
          cases hlist
          have hmem : id ∈ scope.filter (named links name) := by
            rw [hfirst]
            exact List.mem_cons_self
          obtain ⟨hid, hnamed⟩ := List.mem_filter.mp hmem
          refine ⟨[], scope, outer, rfl, nofun, hid, hnamed, ?_⟩
          intro id' hid' hnamed'
          by_contra hne
          have hsymm : Std.Symm fun x y => ∀ name,
              ¬(named links name x = true ∧ named links name y = true) :=
            ⟨fun x y hxy name hyx => hxy name hyx.symm⟩
          exact hpairwise.forall hid hid' (Ne.symm hne) name ⟨hnamed, hnamed'⟩

end Scopes

/-! ## States -/

namespace Vars

open Scopes

variable {δ : Type}

def links (s : Vars δ) : Links := fun id => (s.vars id).map Var.link

/-- Every list of equal names is in the order of the scopes. -/
structure Consistent (s : Vars δ) : Prop where
  ordered : Ordered s.links s.scopes
  hash : ∀ name, s.hash name = withName s.links s.scopes name
  fresh : ∀ id, s.nextVar ≤ id → s.links id = none

/-- A name that some open scope has is found, in the innermost such scope. -/
def FindsInnermost (s : Vars δ) : Prop :=
  ∀ name, (∃ scope ∈ s.scopes, ∃ id ∈ scope, named s.links name id = true) →
    ∃ id, s.varFind name = .ok (id, s) ∧ Innermost s.links s.scopes name id

theorem Consistent.findsInnermost {s : Vars δ} (h : s.Consistent) :
    s.FindsInnermost := by
  rintro name ⟨scope, hscope, id, hid, hnamed⟩
  have hmem : id ∈ withName s.links s.scopes name :=
    List.mem_filter.mpr ⟨List.mem_flatten.mpr ⟨scope, hscope, hid⟩, hnamed⟩
  rw [← h.hash name] at hmem
  cases hlist : s.hash name with
  | nil =>
      rw [hlist] at hmem
      cases hmem
  | cons first rest =>
      have hinnermost := h.ordered.innermost ((h.hash name).symm.trans hlist)
      refine ⟨first, ?_, hinnermost⟩
      obtain ⟨pre, sc, outer, hscopes, -, hfirst, -⟩ := hinnermost
      obtain ⟨link, hlink⟩ := h.ordered.isSome
        (hscopes ▸ List.mem_append_right pre List.mem_cons_self) hfirst
      obtain ⟨var, hvar, -⟩ := Option.map_eq_some_iff.mp hlink
      simp only [varFind, hlist, deref, hvar]
      rfl

/-- What scopes depend on is the same. -/
structure SameScopes (s s' : Vars δ) : Prop where
  links : s'.links = s.links
  hash : s'.hash = s.hash
  scopes : s'.scopes = s.scopes
  saved : s'.saved = s.saved
  nextVar : s'.nextVar = s.nextVar

theorem SameScopes.refl (s : Vars δ) : SameScopes s s := ⟨rfl, rfl, rfl, rfl, rfl⟩

theorem Consistent.of_same {s s' : Vars δ} (h : s.Consistent)
    (hsame : SameScopes s s') : s'.Consistent := by
  obtain ⟨hordered, hhash, hfresh⟩ := h
  constructor
  · rw [hsame.links, hsame.scopes]
    exact hordered
  · rw [hsame.links, hsame.scopes, hsame.hash]
    exact hhash
  · rw [hsame.links, hsame.nextVar]
    exact hfresh

/-- Changing what a variable holds does not matter to scopes. -/
theorem SameScopes.update {s : Vars δ} {id : VarId} {var var' : Var δ}
    (hvar : s.vars id = some var) (hlink : var'.link = var.link) :
    SameScopes s (s.update id var') := by
  refine ⟨?_, rfl, rfl, rfl, rfl⟩
  funext id'
  by_cases h : id' = id
  · subst h
    simp only [Vars.links, Vars.update, Function.update_self, hvar,
      Option.map_some, hlink]
  · simp only [Vars.links, Vars.update, Function.update_of_ne h]

theorem SameScopes.trans {s s' s'' : Vars δ} (h : SameScopes s s')
    (h' : SameScopes s' s'') : SameScopes s s'' :=
  ⟨h'.links.trans h.links, h'.hash.trans h.hash, h'.scopes.trans h.scopes,
    h'.saved.trans h.saved, h'.nextVar.trans h.nextVar⟩

theorem deref_ok {s : Vars δ} {id : VarId} {var : Var δ}
    (h : s.deref id = .ok var) : s.vars id = some var := by
  rw [deref] at h
  split at h
  · cases h
    assumption
  · cases h

/-! ### Creation -/

/-- The scopes inside `curr_scope`, `curr_scope` and those outside it. -/
theorem split_currScope {s : Vars δ} (h : s.currIndex < s.scopes.length) :
    ∃ pre scope outer, s.scopes = pre ++ scope :: outer ∧
      pre.length = s.currIndex ∧ s.currScope = outer.length := by
  refine ⟨s.scopes.take s.currIndex, s.scopes[s.currIndex],
    s.scopes.drop (s.currIndex + 1), ?_, ?_, ?_⟩
  · rw [List.getElem_cons_drop, List.take_append_drop]
  · rw [List.length_take]
    omega
  · rw [currScope, List.length_drop]
    omega

/-- The innermost scope does not have the name, if another one is current. -/
def NotHidden (s : Vars δ) (name : String) : Prop :=
  s.saved = true → ∀ id ∈ s.scopes.headD [], ¬named s.links name id = true

/-- What `var_new` does. -/
theorem varNew_ok {name : String} {s s' : Vars δ} {id : VarId}
    (h : varNew name s = .ok (id, s')) :
    s.currIndex < s.scopes.length ∧ id = s.nextVar ∧
      (∀ first rest, s.hash name = first :: rest →
        ∃ var, s.vars first = some var ∧ var.scope ≠ s.currScope) ∧
      s'.vars = Function.update s.vars s.nextVar
        (some ⟨.none, none, .vuNew, name, s.currScope, s.hash name⟩) ∧
      s'.nextVar = s.nextVar + 1 ∧
      s'.hash = Function.update s.hash name (s.nextVar :: s.hash name) ∧
      s'.scopes = s.scopes.modify s.currIndex (· ++ [s.nextVar]) ∧
      s'.saved = s.saved := by
  rw [varNew] at h
  split at h
  · cases h
  rename_i hlt
  obtain ⟨_, hcheck, h⟩ := bind_eq_ok.mp h
  cases h
  refine ⟨Nat.not_le.mp hlt, rfl, ?_, rfl, rfl, rfl, rfl, rfl⟩
  intro first rest hlist
  rw [assertNewInScope, hlist] at hcheck
  obtain ⟨var, hvar, hcheck⟩ := bind_eq_ok.mp hcheck
  refine ⟨var, deref_ok hvar, ?_⟩
  intro heq
  rw [if_pos heq] at hcheck
  cases hcheck

theorem varFind_of_link {s : Vars δ} {name : String} {id : VarId}
    {rest : List VarId} (hlist : s.hash name = id :: rest)
    (hlink : ∃ link, s.links id = some link) :
    s.varFind name = .ok (id, s) := by
  obtain ⟨link, hlink⟩ := hlink
  obtain ⟨var, hvar, -⟩ := Option.map_eq_some_iff.mp hlink
  simp only [varFind, hlist, deref, hvar]
  rfl

/-- A lookup that changes nothing finds the first one of the list. -/
theorem varFind_unchanged {s : Vars δ} {name : String} {id : VarId}
    (h : s.varFind name = .ok (id, s)) :
    ∃ rest, s.hash name = id :: rest ∧ ∃ link, s.links id = some link := by
  rw [varFind] at h
  split at h
  · have hnext := (varNew_ok h).2.2.2.2.1
    exact absurd hnext (Nat.succ_ne_self _).symm
  · rename_i first rest hlist
    obtain ⟨var, hvar, h⟩ := bind_eq_ok.mp h
    cases h
    refine ⟨rest, hlist, var.link, ?_⟩
    rw [links, deref_ok hvar]
    rfl

theorem FindsInnermost.of_same {s s' : Vars δ} (h : s'.FindsInnermost)
    (hsame : SameScopes s s') : s.FindsInnermost := by
  rintro name hname
  rw [← hsame.links, ← hsame.scopes] at hname
  obtain ⟨id, hfind, hinnermost⟩ := h name hname
  obtain ⟨rest, hlist, hlink⟩ := varFind_unchanged hfind
  rw [hsame.links, hsame.scopes] at hinnermost
  rw [hsame.hash] at hlist
  rw [hsame.links] at hlink
  exact ⟨id, varFind_of_link hlist hlink, hinnermost⟩

theorem Consistent.not_mem_nextVar {s : Vars δ} (h : s.Consistent)
    {scope : List VarId} (hscope : scope ∈ s.scopes) : s.nextVar ∉ scope := by
  intro hid
  obtain ⟨link, hlink⟩ := h.ordered.isSome hscope hid
  rw [h.fresh s.nextVar (Nat.le_refl _)] at hlink
  cases hlink

/-- The assertion keeps a name from coming twice into a scope. -/
private theorem not_named_of_assert {s : Vars δ} (h : s.Consistent)
    {name : String} {pre outer : List (List VarId)} {scope : List VarId}
    (hscopes : s.scopes = pre ++ scope :: outer)
    (hpre : ∀ sc ∈ pre, ∀ id ∈ sc, ¬named s.links name id = true)
    (hcurr : s.currScope = outer.length)
    (hassert : ∀ first rest, s.hash name = first :: rest →
      ∃ var, s.vars first = some var ∧ var.scope ≠ s.currScope) :
    ∀ id ∈ scope, ¬named s.links name id = true := by
  have hlist : s.hash name = scope.filter (named s.links name) ++
      withName s.links outer name := by
    rw [h.hash, hscopes, withName_append, withName_eq_nil hpre, withName_cons]
    rfl
  intro id hid hnamed
  cases hfirst : scope.filter (named s.links name) with
  | nil => exact List.filter_eq_nil_iff.mp hfirst id hid hnamed
  | cons first rest =>
      rw [hfirst] at hlist
      obtain ⟨var, hvar, hne⟩ := hassert first _ hlist
      have hmem : first ∈ scope.filter (named s.links name) := by
        rw [hfirst]
        exact List.mem_cons_self
      have hordered := h.ordered
      rw [hscopes] at hordered
      have hsuffix : ∀ pre : List (List VarId),
          Ordered s.links (pre ++ scope :: outer) →
            Ordered s.links (scope :: outer) := by
        intro pre hordered
        induction pre with
        | nil => exact hordered
        | cons _ _ ih => exact ih hordered.2.2
      obtain ⟨name', hlink⟩ := (hsuffix pre hordered).1 first
        (List.mem_filter.mp hmem).1
      rw [links, hvar] at hlink
      have hscope := congrArg VarLink.scope (Option.some.inj hlink)
      exact hne (hscope.trans hcurr.symm)

/-- A variable made in the scope where it belongs. -/
theorem Consistent.create {s s' : Vars δ} (h : s.Consistent) {name : String}
    {id : VarId} (hnew : varNew name s = .ok (id, s'))
    (hhidden : s.NotHidden name) : s'.Consistent := by
  obtain ⟨hlt, -, hassert, hvars, hnext, hhash, hscopes', hsaved⟩ :=
    varNew_ok hnew
  obtain ⟨pre, scope, outer, hscopes, hlength, hcurr⟩ := split_currScope hlt
  have hpre : ∀ sc ∈ pre, ∀ id ∈ sc, ¬named s.links name id = true := by
    cases hsv : s.saved with
    | false =>
        rw [currIndex, hsv, if_neg Bool.false_ne_true] at hlength
        rw [List.length_eq_zero_iff.mp hlength]
        nofun
    | true =>
        rw [currIndex, hsv, if_pos rfl] at hlength
        obtain ⟨inner, rfl⟩ := List.length_eq_one_iff.mp hlength
        have hinner := hhidden hsv
        rw [hscopes] at hinner
        intro sc hsc
        rw [List.mem_singleton.mp hsc]
        exact hinner
  have hscope := not_named_of_assert h hscopes hpre hcurr hassert
  have hnotMem : ∀ sc ∈ pre ++ scope :: outer, s.nextVar ∉ sc := by
    intro sc hsc
    exact h.not_mem_nextVar (hscopes ▸ hsc)
  have hlist : s.hash name = withName s.links outer name := by
    rw [h.hash, hscopes, withName_append, withName_eq_nil hpre, withName_cons,
      filter_named_eq_nil hscope]
    rfl
  have hlinks : s'.links = withNew s.links outer s.nextVar name := by
    funext id'
    rw [links, hvars]
    by_cases heq : id' = s.nextVar
    · subst heq
      rw [Function.update_self, withNew_same, ← hlist, ← hcurr]
      rfl
    · rw [Function.update_of_ne heq, withNew_ne heq]
      rfl
  have hmodify : s'.scopes = pre ++ (scope ++ [s.nextVar]) :: outer := by
    rw [hscopes', hscopes, ← hlength, List.modify_eq_take_drop]
    simp
  have hordered := h.ordered
  rw [hscopes] at hordered
  constructor
  · rw [hlinks, hmodify]
    exact hordered.create hnotMem hpre hscope
  · intro name'
    rw [hlinks, hmodify, withName_create hnotMem hpre hscope, ← hscopes, hhash]
    split
    · rename_i heq
      subst heq
      rw [Function.update_self, h.hash]
    · rename_i hne
      rw [Function.update_of_ne hne, h.hash]
  · intro id' hle
    rw [hnext] at hle
    have hne : id' ≠ s.nextVar := by
      rintro rfl
      exact Nat.not_succ_le_self _ hle
    rw [hlinks, withNew_ne hne]
    exact h.fresh id' (Nat.le_of_succ_le hle)

/-- A variable made outside a scope that has its name is found in place of the
one of that scope. -/
theorem Consistent.hides {s s' : Vars δ} (h : s.Consistent) {name : String}
    {id : VarId} (hnew : varNew name s = .ok (id, s'))
    (hhidden : ¬s.NotHidden name) : ¬s'.FindsInnermost := by
  obtain ⟨hlt, -, -, hvars, -, hhash, hscopes', -⟩ := varNew_ok hnew
  simp only [NotHidden, Classical.not_imp, not_forall, not_not] at hhidden
  obtain ⟨hsaved, inner, hinner, hnamed⟩ := hhidden
  cases hscopes : s.scopes with
  | nil =>
      rw [hscopes] at hinner
      cases hinner
  | cons first rest =>
      rw [hscopes, List.headD_cons] at hinner
      have hfirst : s.nextVar ∉ first :=
        h.not_mem_nextVar (hscopes ▸ List.mem_cons_self)
      have hne : inner ≠ s.nextVar := by
        rintro rfl
        exact hfirst hinner
      have hmodify : s'.scopes = first :: rest.modify 0 (· ++ [s.nextVar]) := by
        rw [hscopes', hscopes, currIndex, if_pos hsaved,
          List.modify_succ_cons]
      have hnamed' : named s'.links name inner = true := by
        rw [named, links, hvars, Function.update_of_ne hne]
        exact hnamed
      intro hfinds
      obtain ⟨id', hfind, pre, scope, outer, hsplit, hpre, hid', -⟩ :=
        hfinds name ⟨first, hmodify ▸ List.mem_cons_self, inner, hinner,
          hnamed'⟩
      obtain ⟨_, hlist, -⟩ := varFind_unchanged hfind
      rw [hhash, Function.update_self] at hlist
      rw [← (List.cons.inj hlist).1] at hid'
      rw [hmodify] at hsplit
      cases pre with
      | nil =>
          rw [← (List.cons.inj hsplit).1] at hid'
          exact hfirst hid'
      | cons _ pre =>
          rw [List.cons_append] at hsplit
          rw [← (List.cons.inj hsplit).1] at hpre
          exact hpre first List.mem_cons_self inner hinner hnamed'

/-! ### Scopes -/

theorem Consistent.beginScope {s s' : Vars δ} (h : s.Consistent)
    (hcall : s.varBeginScope = .ok s') : s'.Consistent := by
  rw [varBeginScope] at hcall
  split at hcall
  · cases hcall
  cases hcall
  obtain ⟨hordered, hhash, hfresh⟩ := h
  exact ⟨⟨nofun, .nil, hordered⟩, hhash, hfresh⟩

private theorem endVar_ok {id : VarId} {s s' : Vars δ}
    (h : endVar id s = .ok s') :
    ∃ var, s.vars id = some var ∧ s' = { s with
      vars := Function.update s.vars id none
      hash := Function.update s.hash var.hash var.nextWithName } := by
  rw [endVar] at h
  obtain ⟨var, hvar, h⟩ := bind_eq_ok.mp h
  split at h
  · cases h
  split at h
  · cases h
  exact ⟨var, deref_ok hvar, (Except.ok.inj h).symm⟩

private theorem links_update_none (s : Vars δ) (id : VarId)
    (hash : String → List VarId) :
    links { s with vars := Function.update s.vars id none, hash } =
      Function.update s.links id none := by
  funext id'
  by_cases h : id' = id
  · subst h
    simp only [links, Function.update_self, Option.map_none]
  · simp only [links, Function.update_of_ne h]

/-- The loop of `var_end_scope`. -/
private theorem endVars_ending {ids : List VarId} {s s' : Vars δ}
    {outer : List (List VarId)} (h : Ending s.links s.hash ids outer)
    (hrun : endVars ids s = .ok s') :
    Ending s'.links s'.hash [] outer ∧ s'.nextVar = s.nextVar ∧
      s'.saved = s.saved ∧ ∀ id, s.links id = none → s'.links id = none := by
  induction ids generalizing s with
  | nil =>
      cases hrun
      exact ⟨h, rfl, rfl, fun _ hnone => hnone⟩
  | cons id ids ih =>
      obtain ⟨s₁, hend, hrest⟩ := bind_eq_ok.mp hrun
      obtain ⟨var, hvar, rfl⟩ := endVar_ok hend
      have hlink : s.links id = some var.link := by
        rw [links, hvar]
        rfl
      have hnext := h.next hlink
      have hlinks := links_update_none s id
        (Function.update s.hash var.hash var.nextWithName)
      rw [← hlinks] at hnext
      obtain ⟨hending, hnextVar, hsaved, hfreed⟩ := ih hnext hrest
      refine ⟨hending, hnextVar, hsaved, ?_⟩
      intro id' hnone
      apply hfreed
      rw [hlinks]
      by_cases heq : id' = id
      · rw [heq, Function.update_self]
      · rw [Function.update_of_ne heq, hnone]

theorem Consistent.endScope {s s' : Vars δ} (h : s.Consistent)
    (hcall : s.varEndScope = .ok s') : s'.Consistent := by
  rw [varEndScope] at hcall
  split at hcall
  · cases hcall
  split at hcall
  · cases hcall
  rename_i ids outer hscopes
  obtain ⟨s₁, hloop, hend⟩ := bind_eq_ok.mp hcall
  cases hend
  obtain ⟨hordered, hhash, hfresh⟩ := h
  rw [hscopes] at hordered
  have hstart : Ending s.links s.hash ids outer :=
    ⟨hordered, fun name => by rw [hhash, hscopes]⟩
  obtain ⟨hending, hnextVar, -, hfreed⟩ := endVars_ending hstart hloop
  refine ⟨hending.ordered.2.2, hending.hash, ?_⟩
  intro id hle
  rw [hnextVar] at hle
  exact hfreed id (hfresh id hle)

theorem Consistent.setSaved {s : Vars δ} (h : s.Consistent) (saved : Bool) :
    Consistent { s with saved } := ⟨h.ordered, h.hash, h.fresh⟩

/-! ### Assignments -/

/-- The call makes a variable in `curr_scope`, because the one it refers to is
in another scope. -/
inductive Assigns (s : Vars δ) : VarCall δ → String → Prop
  | set {data access var} (haccess : s.currentAccess = some access)
      (hvar : s.vars access.var = some var) (husage : var.usage ≠ .vuForward)
      (hentry : access.path = [] ∨ var.data.isAssoc = false)
      (hscope : var.scope ≠ s.currScope) : Assigns s (.set data) var.hash
  | forward {access var} (haccess : s.currentAccess = some access)
      (hvar : s.vars access.var = some var) (hscope : var.scope ≠ s.currScope) :
      Assigns s .forward var.hash

/-- The state after the call has the scopes of `s`, or one more variable that
the call assigns to. -/
inductive Effect (s s' : Vars δ) (call : VarCall δ) : Prop
  | same (h : SameScopes s s') (hassigns : ∀ name, ¬s.Assigns call name)
  | create {name id s₁} (hassigns : s.Assigns call name)
      (hnew : varNew name s = .ok (id, s₁)) (h : SameScopes s₁ s')

theorem Assigns.unique {s : Vars δ} {call : VarCall δ} {name name' : String}
    (h : s.Assigns call name) (h' : s.Assigns call name') : name = name' := by
  cases h with
  | set haccess hvar =>
      cases h' with
      | set haccess' hvar' =>
          rw [haccess] at haccess'
          cases haccess'
          rw [hvar] at hvar'
          rw [Option.some.inj hvar']
  | forward haccess hvar =>
      cases h' with
      | forward haccess' hvar' =>
          rw [haccess] at haccess'
          cases haccess'
          rw [hvar] at hvar'
          rw [Option.some.inj hvar']

private theorem storeData_same {data : VarData δ} {access : VarAccess δ}
    {id : VarId} {usage : VarUsage} {s s' : Vars δ}
    (h : storeData data access id usage s = .ok s') : SameScopes s s' := by
  rw [storeData] at h
  obtain ⟨var, hvar, h⟩ := bind_eq_ok.mp h
  cases h
  have hupdate : SameScopes s (s.update id { var with
      data := access.clone.modifyAt (fun _ => data) access.path, usage }) :=
    .update (deref_ok hvar) rfl
  exact ⟨hupdate.links, rfl, rfl, rfl, rfl⟩

private theorem varInScope_ok {id id' : VarId} {var : Var δ} {s s₁ : Vars δ}
    (h : varInScope id var s = .ok (id', s₁)) :
    (var.scope = s.currScope ∧ s₁ = s) ∨
      (var.scope ≠ s.currScope ∧ varNew var.hash s = .ok (id', s₁)) := by
  rw [varInScope] at h
  split at h
  · exact .inr ⟨‹_›, h⟩
  · rename_i heq
    cases h
    exact .inl ⟨not_not.mp heq, rfl⟩

theorem varSet_effect {data : VarData δ} {s s' : Vars δ}
    (h : varSet data s = .ok s') : Effect s s' (.set data) := by
  rw [varSet] at h
  split at h
  · cases h
  rename_i access haccess
  obtain ⟨var, hvar, h⟩ := bind_eq_ok.mp h
  have hvar := deref_ok hvar
  have hassigns : ∀ name, s.Assigns (.set data) name →
      var.usage ≠ .vuForward ∧ (access.path = [] ∨ var.data.isAssoc = false) ∧
        var.scope ≠ s.currScope := by
    intro name hname
    cases hname with
    | set haccess' hvar' husage hentry hscope =>
        rw [haccess] at haccess'
        cases haccess'
        rw [hvar] at hvar'
        cases hvar'
        exact ⟨husage, hentry, hscope⟩
  split at h
  · rename_i husage
    split at h
    · cases h
    split at h
    · cases h
    · rename_i ref _
      have hrefs : SameScopes s
          { s with dataRefs := s.dataRefs.set ref data } :=
        ⟨rfl, rfl, rfl, rfl, rfl⟩
      exact .same (hrefs.trans (storeData_same h))
        fun name hname => (hassigns name hname).1 husage
  rename_i husage
  split at h
  · rename_i hentry
    obtain ⟨⟨id, s₁⟩, hscope, hstore⟩ := bind_eq_ok.mp h
    have hsame := storeData_same hstore
    rcases varInScope_ok hscope with ⟨heq, rfl⟩ | ⟨hne, hnew⟩
    · exact .same hsame fun name hname => (hassigns name hname).2.2 heq
    · exact .create (.set haccess hvar husage hentry hne) hnew hsame
  · rename_i hentry
    exact .same (storeData_same h)
      fun name hname => hentry (hassigns name hname).2.1

theorem varForward_effect {s s' : Vars δ} (h : s.varForward = .ok s') :
    Effect s s' .forward := by
  rw [varForward] at h
  split at h
  · cases h
  rename_i access haccess
  obtain ⟨var, hvar, h⟩ := bind_eq_ok.mp h
  have hvar := deref_ok hvar
  split at h
  · cases h
  split at h
  · cases h
  obtain ⟨⟨id, s₁⟩, hscope, h⟩ := bind_eq_ok.mp h
  obtain ⟨var', hvar', h⟩ := bind_eq_ok.mp h
  have hsame : SameScopes s₁ s' := by
    have haccess₁ : SameScopes s₁
        { s₁ with currentAccess := some { access with var := id } } :=
      ⟨rfl, rfl, rfl, rfl, rfl⟩
    apply haccess₁.trans
    split at h
    · cases h
      exact .update (deref_ok hvar') rfl
    · cases h
      have hupdate : SameScopes
          { s₁ with currentAccess := some { access with var := id } }
          (update { s₁ with currentAccess := some { access with var := id } }
            id { var' with
              dataRef := some s₁.dataRefs.length
              usage := .vuForward }) :=
        .update (deref_ok hvar') rfl
      exact ⟨hupdate.links, rfl, rfl, rfl, rfl⟩
  rcases varInScope_ok hscope with ⟨heq, rfl⟩ | ⟨hne, hnew⟩
  · refine .same hsame fun name hname => ?_
    cases hname with
    | forward haccess' hvar' hscope' =>
        rw [haccess] at haccess'
        cases haccess'
        rw [hvar] at hvar'
        cases hvar'
        exact hscope' heq
  · exact .create (.forward haccess hvar hne) hnew hsame

/-- While an outer scope is current, nothing is assigned to a name that the
innermost scope has. -/
def Allowed (s : Vars δ) (call : VarCall δ) : Prop :=
  ∀ name, s.Assigns call name → s.NotHidden name

theorem Effect.consistent {s s' : Vars δ} {call : VarCall δ}
    (h : Effect s s' call) (hs : s.Consistent) (hallowed : s.Allowed call) :
    s'.Consistent := by
  cases h with
  | same h _ => exact hs.of_same h
  | create hassigns hnew h =>
      exact (hs.create hnew (hallowed _ hassigns)).of_same h

theorem Effect.not_findsInnermost {s s' : Vars δ} {call : VarCall δ}
    (h : Effect s s' call) (hs : s.Consistent) (hnot : ¬s.Allowed call) :
    ¬s'.FindsInnermost := by
  simp only [Allowed, not_forall] at hnot
  obtain ⟨name, hassigns, hhidden⟩ := hnot
  cases h with
  | same _ hnone => exact absurd hassigns (hnone name)
  | create hassigns' hnew h =>
      rw [hassigns.unique hassigns'] at hhidden
      exact fun hfinds => hs.hides hnew hhidden (hfinds.of_same h)

private theorem varBeginAccess_same {id : VarId} {s s' : Vars δ}
    (h : varBeginAccess id s = .ok s') : SameScopes s s' := by
  obtain ⟨var, -, h⟩ := bind_eq_ok.mp h
  cases h
  exact ⟨rfl, rfl, rfl, rfl, rfl⟩

/-- No scope has a name that has no variable. -/
private theorem Consistent.notHidden_of_hash_nil {s : Vars δ}
    (h : s.Consistent) {name : String} (hnil : s.hash name = []) :
    s.NotHidden name := by
  intro _ id hid hnamed
  cases hscopes : s.scopes with
  | nil =>
      rw [hscopes] at hid
      cases hid
  | cons first rest =>
      rw [hscopes, List.headD_cons] at hid
      have hmem : id ∈ withName s.links s.scopes name :=
        List.mem_filter.mpr ⟨List.mem_flatten.mpr
          ⟨first, hscopes ▸ List.mem_cons_self, hid⟩, hnamed⟩
      rw [← h.hash, hnil] at hmem
      cases hmem

theorem Consistent.beginAccess {s s' : Vars δ} (h : s.Consistent)
    {name : String} (hcall : VarCall.perform (.beginAccess name) s = .ok s') :
    s'.Consistent := by
  obtain ⟨⟨id, s₁⟩, hfind, haccess⟩ := bind_eq_ok.mp hcall
  have hs₁ : s₁.Consistent := by
    rw [varFind] at hfind
    split at hfind
    · rename_i hnil
      exact h.create hfind (h.notHidden_of_hash_nil hnil)
    · obtain ⟨_, -, hfind⟩ := bind_eq_ok.mp hfind
      cases hfind
      exact h
  exact hs₁.of_same (varBeginAccess_same haccess)

private theorem perform_other {s s' : Vars δ} (h : s.Consistent)
    {call : VarCall δ} (hset : ∀ data, call ≠ .set data)
    (hforward : call ≠ .forward) (hcall : call.perform s = .ok s') :
    s'.Consistent := by
  cases call with
  | beginScope => exact h.beginScope hcall
  | endScope => exact h.endScope hcall
  | outerScope =>
      simp only [VarCall.perform, varOuterScope] at hcall
      split at hcall
      · cases hcall
      split at hcall
      · cases hcall
      cases hcall
      exact h.setSaved true
  | innerScope =>
      simp only [VarCall.perform, varInnerScope] at hcall
      split at hcall
      · cases hcall
        exact h.setSaved false
      · cases hcall
  | beginAccess name => exact h.beginAccess hcall
  | follow name =>
      simp only [VarCall.perform, varFollow] at hcall
      split at hcall
      · cases hcall
      cases hcall
      exact h.of_same ⟨rfl, rfl, rfl, rfl, rfl⟩
  | pushAccess =>
      simp only [VarCall.perform, varPushAccess] at hcall
      split at hcall
      · cases hcall
      cases hcall
      exact h.of_same ⟨rfl, rfl, rfl, rfl, rfl⟩
  | popAccess =>
      simp only [VarCall.perform, varPopAccess] at hcall
      split at hcall
      · cases hcall
      cases hcall
      exact h.of_same ⟨rfl, rfl, rfl, rfl, rfl⟩
  | set data => exact absurd rfl (hset data)
  | forward => exact absurd rfl hforward

/-- One call keeps the order of the lists if it is allowed, and breaks it
otherwise. -/
theorem Consistent.perform {s s' : Vars δ} (h : s.Consistent)
    {call : VarCall δ} (hcall : call.perform s = .ok s') :
    (s.Allowed call → s'.Consistent) ∧
      (¬s.Allowed call → ¬s'.FindsInnermost) := by
  by_cases hset : ∃ data, call = .set data
  · obtain ⟨data, rfl⟩ := hset
    have heffect := varSet_effect hcall
    exact ⟨heffect.consistent h, heffect.not_findsInnermost h⟩
  by_cases hforward : call = .forward
  · subst hforward
    have heffect := varForward_effect hcall
    exact ⟨heffect.consistent h, heffect.not_findsInnermost h⟩
  have hset : ∀ data, call ≠ .set data := fun data heq => hset ⟨data, heq⟩
  refine ⟨fun _ => perform_other h hset hforward hcall, ?_⟩
  intro hnot
  exfalso
  apply hnot
  intro name hassigns
  cases hassigns with
  | set => exact absurd rfl (hset _)
  | forward => exact absurd rfl hforward

/-- Every call is allowed in the state in which it is made. -/
def AllAllowed : List (VarCall δ) → Vars δ → Prop
  | [], _ => True
  | call :: calls, s => s.Allowed call ∧
      ∀ s', call.perform s = .ok s' → AllAllowed calls s'

/-- What was found is right after each of the calls. -/
def AlwaysFindsInnermost : List (VarCall δ) → Vars δ → Prop
  | [], s => s.FindsInnermost
  | call :: calls, s => s.FindsInnermost ∧
      ∀ s', call.perform s = .ok s' → AlwaysFindsInnermost calls s'

theorem initial_consistent : (initial : Vars δ).Consistent :=
  ⟨trivial, fun _ => rfl, fun _ _ => rfl⟩

private theorem AlwaysFindsInnermost.now {calls : List (VarCall δ)}
    {s : Vars δ} (h : AlwaysFindsInnermost calls s) : s.FindsInnermost := by
  cases calls with
  | nil => exact h
  | cons => exact h.1

private theorem alwaysFindsInnermost_iff {calls : List (VarCall δ)}
    {s s' : Vars δ} (h : s.Consistent) (hrun : run calls s = .ok s') :
    AlwaysFindsInnermost calls s ↔ AllAllowed calls s := by
  induction calls generalizing s with
  | nil => exact ⟨fun _ => trivial, fun _ => h.findsInnermost⟩
  | cons call calls ih =>
      obtain ⟨s₁, hcall, hrest⟩ := bind_eq_ok.mp hrun
      obtain ⟨hgood, hbad⟩ := h.perform hcall
      constructor
      · rintro ⟨-, hnext⟩
        have hallowed : s.Allowed call :=
          not_not.mp fun hnot => hbad hnot (hnext s₁ hcall).now
        refine ⟨hallowed, fun s₂ hcall' => ?_⟩
        rw [hcall] at hcall'
        cases hcall'
        exact (ih (hgood hallowed) hrest).mp (hnext s₁ hcall)
      · rintro ⟨hallowed, hnext⟩
        refine ⟨h.findsInnermost, fun s₂ hcall' => ?_⟩
        rw [hcall] at hcall'
        cases hcall'
        exact (ih (hgood hallowed) hrest).mpr (hnext s₁ hcall)

end Vars

/-- In a run that passes all assertions, names are found where they should be
after each call if and only if each call is allowed. -/
theorem varFind_innermost_iff {δ : Type} {calls : List (VarCall δ)}
    {s : Vars δ} (h : Vars.run calls .initial = .ok s) :
    Vars.AlwaysFindsInnermost calls .initial ↔
      Vars.AllAllowed calls .initial :=
  Vars.alwaysFindsInnermost_iff Vars.initial_consistent h

/-- A global variable is made from an inner scope, which then has its own. -/
theorem varFind_innermost_iff_outer :
    (Vars.AlwaysFindsInnermost (δ := Nat) [.beginScope, .beginScope,
        .outerScope, .beginAccess "x", .set (.plain 1), .innerScope,
        .beginAccess "x", .set (.plain 2), .endScope] .initial ↔
      Vars.AllAllowed (δ := Nat) [.beginScope, .beginScope,
        .outerScope, .beginAccess "x", .set (.plain 1), .innerScope,
        .beginAccess "x", .set (.plain 2), .endScope] .initial) ∧
    ∃ s, Vars.run (δ := Nat) [.beginScope, .beginScope,
        .outerScope, .beginAccess "x", .set (.plain 1), .innerScope,
        .beginAccess "x", .set (.plain 2), .endScope] .initial = .ok s :=
  ⟨varFind_innermost_iff rfl, _, rfl⟩

/-- The inner scope has `x` already when the global one gets it. -/
theorem varFind_outerFirst :
    ¬∀ (calls : List (VarCall Nat)) s, Vars.run calls .initial = .ok s →
      s.FindsInnermost := by
  intro h
  have hfinds := h [.beginScope, .beginScope, .beginAccess "x",
    .set (.plain 1), .outerScope, .beginAccess "x", .set (.plain 2),
    .innerScope] _ rfl "x" ⟨[0], List.mem_cons_self, 0, List.mem_cons_self, rfl⟩
  obtain ⟨id, hfind, pre, scope, outer, hscopes, hpre, hid, -⟩ := hfinds
  have hone : id = 1 := by
    have hfirst := congrArg (fun r => r.toOption.map Prod.fst) hfind
    exact (Option.some.inj hfirst).symm
  subst hone
  cases pre with
  | nil =>
      have hscope : [0] = scope := (List.cons.inj hscopes).1
      rw [← hscope] at hid
      cases List.mem_singleton.mp hid
  | cons first pre =>
      have hfirst : [0] = first := (List.cons.inj hscopes).1
      exact hpre first List.mem_cons_self 0 (hfirst ▸ List.mem_cons_self) rfl

end Tcng
