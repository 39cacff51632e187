import Mathlib.Data.Finset.Card
import Mathlib.Data.List.Nodup
import Mathlib.Data.List.Pairwise
import Tcng.Tree.SelectionPaths

/-! Paths through the inner qdisc, and what is registered for them. -/

namespace Tcng.Csp

open Program

/-! ## Paths -/

/-- Classes on the way down, one of each qdisc. -/
inductive QdiscPath : InnerQdisc → List ClassInfo → Prop
  | done (qdisc : InnerQdisc) : QdiscPath qdisc []
  | step {info : QdiscInfo} {classes : InnerClasses} {cl : ClassInfo}
      {below : InnerQdisc} {path : List ClassInfo} :
      (cl, below) ∈ classes.members → QdiscPath below path →
        QdiscPath (.qdisc info classes) (cl :: path)

mutual

/-- `parent.qdisc` is the qdisc of the class. -/
def Owned : InnerQdisc → Prop
  | .null => True
  | .qdisc info classes => OwnedBy info classes

def OwnedBy (parent : QdiscInfo) : InnerClasses → Prop
  | .null => True
  | .class info qdisc child next =>
      info.parent = parent ∧ Owned qdisc ∧ OwnedBy parent child ∧
        OwnedBy parent next

end

/-- An inner qdisc with what hangs from it. -/
structure InnerTree where
  qdisc : InnerQdisc
  owned : Owned qdisc
  qdiscs : (qdisc.qdiscs.map QdiscInfo.address).Nodup
  classes : (qdisc.classInfos.map ClassInfo.address).Nodup

/-- The path that a list of classes stands for: it has all of them and ends
with one. -/
structure Resolves (inner : InnerQdisc) (list : List Class)
    (path : List ClassInfo) : Prop where
  isPath : QdiscPath inner path
  all : ∀ c ∈ list, c ∈ path.map ClassInfo.address
  last : ∀ cl ∈ path.getLast?, cl.address ∈ list

theorem members_ownedBy {parent : QdiscInfo} {t : InnerClasses}
    (h : OwnedBy parent t) : ∀ member ∈ t.members,
      member.1.parent = parent ∧ Owned member.2 := by
  match t with
  | .null => exact fun _ h => (List.not_mem_nil h).elim
  | .class info qdisc child next =>
      obtain ⟨hinfo, hqdisc, hchild, hnext⟩ := h
      intro member hmem
      simp only [Classes.members, List.mem_cons, List.mem_append] at hmem
      rcases hmem with rfl | hmem | hmem
      · exact ⟨hinfo, hqdisc⟩
      · exact members_ownedBy hchild member hmem
      · exact members_ownedBy hnext member hmem

/-- The classes of a member come one after the other in the tree. -/
theorem members_sublist {cl : ClassInfo} {below : InnerQdisc}
    {t : InnerClasses} (h : (cl, below) ∈ t.members) :
    (cl :: below.classInfos).Sublist t.classInfos ∧
      below.qdiscs.Sublist t.qdiscs := by
  match t with
  | .null => exact (List.not_mem_nil h).elim
  | .class info qdisc child next =>
      simp only [Classes.members, List.mem_cons, List.mem_append] at h
      simp only [Classes.classInfos, Classes.qdiscs]
      rcases h with h | h | h
      · cases h
        exact ⟨(List.sublist_append_left _ _).cons_cons _,
          List.sublist_append_left _ _⟩
      · obtain ⟨hinfos, hqdiscs⟩ := members_sublist h
        constructor
        · exact ((hinfos.trans (List.sublist_append_left _ _)).trans
            (List.sublist_append_right _ _)).cons _
        · exact (hqdiscs.trans (List.sublist_append_left _ _)).trans
            (List.sublist_append_right _ _)
      · obtain ⟨hinfos, hqdiscs⟩ := members_sublist h
        constructor
        · exact ((hinfos.trans (List.sublist_append_right _ _)).trans
            (List.sublist_append_right _ _)).cons _
        · exact (hqdiscs.trans (List.sublist_append_right _ _)).trans
            (List.sublist_append_right _ _)

theorem classInfos_eq (t : InnerClasses) :
    t.classInfos = t.members.flatMap fun m => m.1 :: m.2.classInfos := by
  match t with
  | .null => rfl
  | .class info qdisc child next =>
      rw [Classes.members, Classes.classInfos, List.flatMap_cons,
        List.flatMap_append, ← classInfos_eq child, ← classInfos_eq next]
      rfl

/-- Each class is at or below one class of the qdisc. -/
theorem members_common {t : InnerClasses}
    (hnodup : (t.classInfos.map ClassInfo.address).Nodup)
    {cl cl' x x' : ClassInfo} {below below' : InnerQdisc}
    (h : (cl, below) ∈ t.members) (h' : (cl', below') ∈ t.members)
    (hx : x ∈ cl :: below.classInfos) (hx' : x' ∈ cl' :: below'.classInfos)
    (heq : x.address = x'.address) : cl = cl' ∧ below = below' := by
  rw [classInfos_eq, List.map_flatMap, List.nodup_flatMap] at hnodup
  have hsymm : Std.Symm (Function.onFun List.Disjoint fun m : ClassInfo ×
      InnerQdisc => (m.1 :: m.2.classInfos).map ClassInfo.address) :=
    ⟨fun _ _ h => h.symm⟩
  by_contra hne
  have hdisjoint := hnodup.2.forall h h' fun heq => hne (Prod.mk.inj heq)
  apply hdisjoint (List.mem_map_of_mem hx)
  rw [heq]
  exact List.mem_map_of_mem hx'

/-- Classes of one qdisc are known by their addresses. -/
theorem members_inj {t : InnerClasses}
    (hnodup : (t.classInfos.map ClassInfo.address).Nodup)
    {cl cl' : ClassInfo} {below below' : InnerQdisc}
    (h : (cl, below) ∈ t.members) (h' : (cl', below') ∈ t.members)
    (heq : cl.address = cl'.address) : cl = cl' ∧ below = below' :=
  members_common hnodup h h' List.mem_cons_self List.mem_cons_self heq

theorem QdiscPath.sublist {inner : InnerQdisc} {path : List ClassInfo}
    (h : QdiscPath inner path) : path.Sublist inner.classInfos := by
  induction h with
  | done => exact List.nil_sublist _
  | step hmem hpath ih =>
      exact (ih.cons_cons _).trans (members_sublist hmem).1

/-- Paths that share their ends are the same. -/
private theorem QdiscPath.eq_of_ends {t : InnerQdisc}
    {path path' : List ClassInfo} (h : QdiscPath t path)
    (h' : QdiscPath t path')
    (hnodup : (t.classInfos.map ClassInfo.address).Nodup)
    (hend : ∀ cl ∈ path.getLast?, cl.address ∈ path'.map ClassInfo.address)
    (hend' : ∀ cl ∈ path'.getLast?, cl.address ∈ path.map ClassInfo.address) :
    path = path' := by
  induction h generalizing path' with
  | done =>
      cases hlast : path'.getLast? with
      | none => exact (List.getLast?_eq_none_iff.mp hlast).symm
      | some cl => exact (List.not_mem_nil (hend' cl hlast)).elim
  | step hmem hpath ih =>
      rename_i info classes cl below path
      cases h' with
      | done =>
          have hlast := List.getLast?_eq_some_getLast (List.cons_ne_nil cl path)
          exact (List.not_mem_nil (hend _ hlast)).elim
      | step hmem' hpath' =>
          rename_i cl' below' path'
          have hlast := List.getLast?_eq_some_getLast (List.cons_ne_nil cl path)
          obtain ⟨x', hx', heq⟩ := List.mem_map.mp (hend _ hlast)
          obtain ⟨rfl, rfl⟩ := members_common hnodup hmem hmem'
            ((hpath.sublist.cons_cons cl).subset (List.mem_of_getLast? hlast))
            ((hpath'.sublist.cons_cons cl').subset hx') heq.symm
          have hbelow := hnodup.sublist ((members_sublist hmem).1.map _)
          rw [List.map_cons, List.nodup_cons] at hbelow
          -- an end further down is not the class they have in common
          have hrest {path path' : List ClassInfo} (hpath : QdiscPath below path)
              (hend : ∀ x ∈ (cl :: path).getLast?,
                x.address ∈ (cl :: path').map ClassInfo.address) :
              ∀ x ∈ path.getLast?, x.address ∈ path'.map ClassInfo.address := by
            intro x hx
            have hin := hend x (by
              cases path with
              | nil => cases hx
              | cons y path => rwa [List.getLast?_cons_cons])
            rw [List.map_cons, List.mem_cons] at hin
            refine hin.resolve_left fun heq => hbelow.1 ?_
            rw [← heq]
            exact List.mem_map_of_mem
              (hpath.sublist.subset (List.mem_of_getLast? hx))
          rw [ih hpath' hbelow.2 (hrest hpath hend) (hrest hpath' hend')]

/-- A list stands for one path at most. -/
theorem Resolves.unique {inner : InnerQdisc}
    (hnodup : (inner.classInfos.map ClassInfo.address).Nodup)
    {list : List Class} {path path' : List ClassInfo}
    (h : Resolves inner list path) (h' : Resolves inner list path') :
    path = path' :=
  h.isPath.eq_of_ends h'.isPath hnodup
    (fun cl hcl => h'.all _ (h.last cl hcl))
    fun cl hcl => h.all _ (h'.last cl hcl)

/-! ## Finding a path -/

/-- What registering a path does. -/
def State.withPath (s : State) (path : List ClassInfo) : State :=
  { s with
    qdiscs := path.reverse.foldl registerSelClass s.qdiscs
    paths := addSelPath path s.paths }

/-- No qdisc of the path has filters. -/
def State.Unfiltered (s : State) (path : List ClassInfo) : Prop :=
  ∀ cl ∈ path, s.filters cl.parent.address = []

private theorem registerSelPath_spec (path prev : List ClassInfo) (s : State) :
    wp (registerSelPath path prev) (fun _ t => s.Unfiltered prev ∧
        t = { s with
          qdiscs := prev.foldl registerSelClass s.qdiscs
          paths := addSelPath (prev.reverse ++ path) s.paths })
      (fun _ _ => True) s := by
  induction prev generalizing path s with
  | nil => exact ⟨fun _ h => (List.not_mem_nil h).elim, rfl⟩
  | cons this prev ih =>
      unfold registerSelPath
      rw [wp_bind, wp_get, wp_ite]
      refine ⟨fun _ => trivial, fun hfilters => ?_⟩
      rw [wp_bind, wp_modify]
      apply wp_mono (ih _ _) _ (fun _ _ h => h)
      rintro _ t ⟨hprev, rfl⟩
      refine ⟨fun cl hcl => ?_, by simp⟩
      rcases List.mem_cons.mp hcl with rfl | hcl
      · exact not_not.mp hfilters
      · exact hprev cl hcl

private theorem registerSelPath_withPath (prev : List ClassInfo) (s : State) :
    wp (registerSelPath [] prev) (fun _ t => s.Unfiltered prev.reverse ∧
        t = s.withPath prev.reverse)
      (fun _ _ => True) s := by
  apply wp_mono (registerSelPath_spec [] prev s) _ (fun _ _ h => h)
  rintro _ t ⟨hprev, rfl⟩
  refine ⟨fun cl hcl => hprev cl (List.mem_reverse.mp hcl), ?_⟩
  simp [State.withPath]

/-- `left` classes of the list are on the path, one of them at its end. -/
structure Matches (list : List Class) (left : Nat) (path : List ClassInfo) :
    Prop where
  count : path.countP (fun cl => cl.address ∈ list) = left
  last : ∃ cl ∈ path.getLast?, cl.address ∈ list

/-- A walk registers one path at most; `IsPath` says what it may be and
`infos` are the classes it can end with. -/
def Walked (list : List Class) (left : Nat) (prev : List ClassInfo)
    (IsPath : List ClassInfo → Prop) (infos : List ClassInfo) (s : State)
    (last last' : Option Class) (s' : State) : Prop :=
  (last' = last ∧ s' = s) ∨
    last = none ∧ ∃ path, IsPath path ∧ Matches list left path ∧
      s.Unfiltered (prev.reverse ++ path) ∧
      s' = s.withPath (prev.reverse ++ path) ∧
      ∃ cl ∈ infos, last' = some cl.address

section

variable {list : List Class} {left : Nat} {prev : List ClassInfo}
  {IsPath IsPath' : List ClassInfo → Prop} {infos infos' : List ClassInfo}
  {s s₁ s₂ : State} {last last₁ last₂ : Option Class}

/-- The class that was found last is not among these. -/
def Elsewhere (last : Option Class) (infos : List ClassInfo) : Prop :=
  ∀ cl ∈ infos, last ≠ some cl.address

private theorem Elsewhere.append (h : Elsewhere last (infos ++ infos')) :
    Elsewhere last infos ∧ Elsewhere last infos' :=
  ⟨fun cl hcl => h cl (List.mem_append_left _ hcl),
    fun cl hcl => h cl (List.mem_append_right _ hcl)⟩

private theorem Walked.elsewhere
    (h : Walked list left prev IsPath infos s last last₁ s₁)
    (hlast : Elsewhere last infos')
    (hnodup : ((infos ++ infos').map ClassInfo.address).Nodup) :
    Elsewhere last₁ infos' := by
  rcases h with ⟨rfl, -⟩ | ⟨-, path, -, -, -, -, cl, hcl, rfl⟩
  · exact hlast
  · rw [List.map_append, List.nodup_append] at hnodup
    intro cl' hcl' heq
    exact hnodup.2.2 _ (List.mem_map_of_mem hcl) _ (List.mem_map_of_mem hcl')
      (Option.some.inj heq)

private theorem Walked.mono
    (h : Walked list left prev IsPath infos s last last₁ s₁)
    (hpath : ∀ path, IsPath path → IsPath' path) (hinfos : infos ⊆ infos') :
    Walked list left prev IsPath' infos' s last last₁ s₁ := by
  rcases h with h | ⟨hnone, path, hp, hmatch, hclear, hs, cl, hcl, hlast⟩
  · exact .inl h
  · exact .inr ⟨hnone, path, hpath path hp, hmatch, hclear, hs, cl,
      hinfos hcl, hlast⟩

/-- Of two walks, one after the other, only one registers a path. -/
private theorem Walked.after
    (h : Walked list left prev IsPath infos s last last₁ s₁)
    (h' : Walked list left prev IsPath infos s₁ last₁ last₂ s₂) :
    Walked list left prev IsPath infos s last last₂ s₂ := by
  rcases h with ⟨rfl, rfl⟩ | ⟨hnone, path, hp, hmatch, hclear, hs, hlast⟩
  · exact h'
  · rcases h' with ⟨rfl, rfl⟩ | ⟨hnone', -⟩
    · exact .inr ⟨hnone, path, hp, hmatch, hclear, hs, hlast⟩
    · obtain ⟨cl, -, rfl⟩ := hlast
      cases hnone'

private theorem Matches.cons {this : ClassInfo} {path : List ClassInfo}
    {left' : Nat} (h : Matches list left' path)
    (hleft : left = left' + if this.address ∈ list then 1 else 0) :
    Matches list left (this :: path) := by
  obtain ⟨cl, hlast, hcl⟩ := h.last
  constructor
  · rw [List.countP_cons, h.count, hleft]
    simp
  · refine ⟨cl, ?_, hcl⟩
    cases path with
    | nil => cases hlast
    | cons first rest => rwa [List.getLast?_cons_cons]

/-- A walk below a class is one from above. -/
private theorem Walked.descend {this : ClassInfo} {left' : Nat}
    (h : Walked list left' (this :: prev) IsPath infos s last last₁ s₁)
    (hleft : left = left' + if this.address ∈ list then 1 else 0)
    (hpath : ∀ path, IsPath path → IsPath' (this :: path))
    (hinfos : infos ⊆ infos') :
    Walked list left prev IsPath' infos' s last last₁ s₁ := by
  rcases h with h | ⟨hnone, path, hp, hmatch, hclear, hs, cl, hcl, hlast⟩
  · exact .inl h
  · rw [List.reverse_cons, List.append_assoc] at hclear hs
    exact .inr ⟨hnone, this :: path, hpath path hp, hmatch.cons hleft, hclear,
      hs, cl, hinfos hcl, hlast⟩

end

/-- A path that begins with a class of the list. -/
def MemberPath (t : InnerClasses) (path : List ClassInfo) : Prop :=
  ∃ cl below rest, (cl, below) ∈ t.members ∧ QdiscPath below rest ∧
    path = cl :: rest

section

variable {this : ClassInfo} {qdisc : InnerQdisc} {child next : InnerClasses}

private theorem memberPath_below {path : List ClassInfo}
    (h : QdiscPath qdisc path) :
    MemberPath (.class this qdisc child next) (this :: path) :=
  ⟨this, qdisc, path, by simp [Classes.members], h, rfl⟩

private theorem memberPath_child {path : List ClassInfo}
    (h : MemberPath child path) :
    MemberPath (.class this qdisc child next) path := by
  obtain ⟨cl, below, rest, hmem, hpath, rfl⟩ := h
  exact ⟨cl, below, rest, by simp [Classes.members, hmem], hpath, rfl⟩

private theorem memberPath_next {path : List ClassInfo}
    (h : MemberPath next path) :
    MemberPath (.class this qdisc child next) path := by
  obtain ⟨cl, below, rest, hmem, hpath, rfl⟩ := h
  exact ⟨cl, below, rest, by simp [Classes.members, hmem], hpath, rfl⟩

/-- Below a class, then among its children and then among the classes that
follow. -/
private theorem class_walks {list : List Class} {left left' : Nat}
    {prev : List ClassInfo} {last : Option Class} {s : State}
    (hbelow : wp (findInQdisc list last left' (this :: prev) qdisc)
      (Walked list left' (this :: prev) (QdiscPath qdisc) qdisc.classInfos s
        last) (fun _ _ => True) s)
    (hchild : ∀ last s, Elsewhere last child.classInfos →
      wp (findLastClass list last left prev child)
        (Walked list left prev (MemberPath child) child.classInfos s last)
        (fun _ _ => True) s)
    (hnext : ∀ last s, Elsewhere last next.classInfos →
      wp (findLastClass list last left prev next)
        (Walked list left prev (MemberPath next) next.classInfos s last)
        (fun _ _ => True) s)
    (hleft : left = left' + if this.address ∈ list then 1 else 0)
    (hnodup : ((qdisc.classInfos ++
      (child.classInfos ++ next.classInfos)).map ClassInfo.address).Nodup)
    (hlast : Elsewhere last
      (qdisc.classInfos ++ (child.classInfos ++ next.classInfos))) :
    wp (do
        let last ← findInQdisc list last left' (this :: prev) qdisc
        let last ← findLastClass list last left prev child
        findLastClass list last left prev next)
      (Walked list left prev (MemberPath (.class this qdisc child next))
        (Classes.class this qdisc child next).classInfos s last)
      (fun _ _ => True) s := by
  rw [wp_bind]
  apply wp_mono hbelow _ (fun _ _ h => h)
  intro last₁ s₁ h₁
  have hrest := h₁.elsewhere hlast.append.2 hnodup
  have hnodup' : ((child.classInfos ++ next.classInfos).map
      ClassInfo.address).Nodup := by
    rw [List.map_append] at hnodup
    exact (List.nodup_append.mp hnodup).2.1
  rw [wp_bind]
  apply wp_mono (hchild last₁ s₁ hrest.append.1) _ (fun _ _ h => h)
  intro last₂ s₂ h₂
  have hrest' := h₂.elsewhere hrest.append.2 hnodup'
  apply wp_mono (hnext last₂ s₂ hrest') _ (fun _ _ h => h)
  intro last₃ s₃ h₃
  refine ((h₁.descend hleft (fun _ => memberPath_below) ?_).after
    (h₂.mono (fun _ => memberPath_child) ?_)).after
      (h₃.mono (fun _ => memberPath_next) ?_)
  all_goals
    intro cl hcl
    simp [Classes.classInfos, hcl]

end

variable (list : List Class)

mutual

private theorem findLastClass_walks (t : InnerClasses) {left : Nat}
    (hleft : 0 < left) (prev : List ClassInfo) {last : Option Class}
    (hnodup : (t.classInfos.map ClassInfo.address).Nodup)
    (hlast : Elsewhere last t.classInfos) (s : State) :
    wp (findLastClass list last left prev t)
      (Walked list left prev (MemberPath t) t.classInfos s last)
      (fun _ _ => True) s := by
  match t with
  | .null => exact .inl ⟨rfl, rfl⟩
  | .class this qdisc child next =>
      have hinfos := hnodup
      rw [Classes.classInfos, List.map_cons, List.nodup_cons] at hinfos
      obtain ⟨hthis, hinfos⟩ := hinfos
      have hparts := hinfos
      simp only [List.map_append, List.nodup_append] at hparts
      obtain ⟨hqdisc, ⟨hchild, hnext, -⟩, -⟩ := hparts
      have hlast' : Elsewhere last
          (qdisc.classInfos ++ (child.classInfos ++ next.classInfos)) :=
        fun cl hcl => hlast cl (List.mem_cons_of_mem _ hcl)
      have hchild (last : Option Class) (s : State)
          (h : Elsewhere last child.classInfos) :=
        findLastClass_walks child hleft prev hchild h s
      have hnext (last : Option Class) (s : State)
          (h : Elsewhere last next.classInfos) :=
        findLastClass_walks next hleft prev hnext h s
      unfold findLastClass
      rw [wp_ite, wp_ite, wp_ite, wp_ite]
      refine ⟨fun hother => ?_, fun hthere => ⟨fun hone => ⟨fun _ => trivial,
        fun hsame => ?_⟩, fun hone => ⟨fun _ => trivial, fun _ => ?_⟩⟩⟩
      · exact class_walks
          (findInQdisc_walks qdisc hleft (this :: prev) hqdisc
            hlast'.append.1 s) hchild hnext (by simp [hother]) hinfos hlast'
      · have hnone : last = none := by
          have hne := hlast this List.mem_cons_self
          by_contra hsome
          exact hsame ⟨hsome, hne⟩
        rw [wp_bind]
        apply wp_mono (registerSelPath_withPath (this :: prev) s) _
          (fun _ _ h => h)
        rintro _ s₁ ⟨hclear, rfl⟩
        rw [List.reverse_cons] at hclear
        have hself : Elsewhere (some this.address) next.classInfos := by
          intro cl hcl heq
          apply hthis
          rw [Option.some.inj heq]
          apply List.mem_map_of_mem
          simp [hcl]
        apply wp_mono (hnext _ _ hself) _ (fun _ _ h => h)
        intro last₂ s₂ h₂
        have hfound : Walked list left prev
            (MemberPath (.class this qdisc child next))
            (Classes.class this qdisc child next).classInfos s last
            (some this.address) (s.withPath (this :: prev).reverse) := by
          refine .inr ⟨hnone, [this], memberPath_below (.done qdisc), ?_,
            hclear, by rw [List.reverse_cons], this, by simp [Classes.classInfos],
            rfl⟩
          have hin := not_not.mp hthere
          refine ⟨?_, this, rfl, hin⟩
          simp [hin, hone]
        refine hfound.after (h₂.mono (fun _ => memberPath_next) ?_)
        intro cl hcl
        simp [Classes.classInfos, hcl]
      · have hthere := not_not.mp hthere
        have hpos : 0 < left - 1 := by omega
        have hbelow := findInQdisc_walks qdisc hpos (this :: prev) hqdisc
          hlast'.append.1 s
        apply class_walks hbelow hchild hnext _ hinfos hlast'
        rw [if_pos hthere]
        omega

private theorem findInQdisc_walks (t : InnerQdisc) {left : Nat}
    (hleft : 0 < left) (prev : List ClassInfo) {last : Option Class}
    (hnodup : (t.classInfos.map ClassInfo.address).Nodup)
    (hlast : Elsewhere last t.classInfos) (s : State) :
    wp (findInQdisc list last left prev t)
      (Walked list left prev (QdiscPath t) t.classInfos s last)
      (fun _ _ => True) s := by
  match t with
  | .null => exact .inl ⟨rfl, rfl⟩
  | .qdisc info classes =>
      apply wp_mono (findLastClass_walks classes hleft prev hnodup hlast s) _
        (fun _ _ h => h)
      intro last' s' h
      apply h.mono _ (fun _ h => h)
      rintro path ⟨cl, below, rest, hmem, hpath, rfl⟩
      exact .step hmem hpath

end

/-! ## One path for each list -/

def pathClasses (list : List PathRef) : List Class :=
  list.filterMap fun
    | .toClass c => some c
    | .other _ => none

omit list in
private theorem countPathClasses_spec (before : List Class)
    (list : List PathRef) {classes : List Class} {n : Nat}
    (h : countPathClasses before list = .ok (classes, n)) :
    classes = before ++ pathClasses list ∧
      n + before.toFinset.card = classes.toFinset.card := by
  induction list generalizing before n with
  | nil =>
      cases h
      simp [pathClasses]
  | cons entry list ih =>
      cases entry with
      | other typeName => cases h
      | toClass c =>
          unfold countPathClasses at h
          obtain ⟨⟨classes', n'⟩, hrest, h⟩ := bind_eq_ok.mp h
          cases h
          obtain ⟨hclasses, hcard⟩ := ih _ hrest
          refine ⟨by rw [hclasses]; simp [pathClasses], ?_⟩
          rw [← hcard]
          by_cases hc : c ∈ before
          · have hsame : (before ++ [c]).toFinset = before.toFinset := by
              ext x
              simp only [List.mem_toFinset, List.mem_append,
                List.mem_singleton]
              exact ⟨fun hx => hx.elim id fun hx => hx ▸ hc, .inl⟩
            rw [if_pos hc, hsame]
          · have hmore : (before ++ [c]).toFinset = insert c before.toFinset := by
              ext x
              simp
            rw [if_neg hc, hmore, Finset.card_insert_of_notMem (by simpa)]
            omega

omit list in
/-- A path with as many classes of the list as there are has all of them. -/
private theorem Matches.resolves {inner : InnerTree} {list : List Class}
    {path : List ClassInfo}
    (h : Matches list list.toFinset.card path)
    (hpath : QdiscPath inner.qdisc path) :
    Resolves inner.qdisc list path where
  isPath := hpath
  all := by
    have hnodup : (path.map ClassInfo.address).Nodup :=
      inner.classes.sublist (hpath.sublist.map _)
    have hcount : ((path.map ClassInfo.address).filter (· ∈ list)).length =
        list.toFinset.card := by
      rw [← h.count, ← List.countP_eq_length_filter, List.countP_map]
      rfl
    have hsame : ((path.map ClassInfo.address).filter (· ∈ list)).toFinset =
        list.toFinset := by
      apply Finset.eq_of_subset_of_card_le
      · intro c hc
        simp only [List.mem_toFinset, List.mem_filter, decide_eq_true_eq] at hc
        exact List.mem_toFinset.mpr hc.2
      · rw [List.toFinset_card_of_nodup (hnodup.filter _), hcount]
    intro c hc
    rw [← List.mem_toFinset, ← hsame, List.mem_toFinset, List.mem_filter] at hc
    exact hc.1
  last := by
    obtain ⟨cl, hlast, hcl⟩ := h.last
    intro cl' hlast'
    rw [Option.mem_unique hlast' hlast]
    exact hcl

omit list in
theorem registerSelectionPath_resolves (inner : InnerTree) (number : Class)
    (list : List PathRef) (s : State) :
    wp (registerSelectionPath number list inner.qdisc)
      (fun _ t => ∃ path, Resolves inner.qdisc (pathClasses list) path ∧
        s.Unfiltered path ∧
        t = { s.withPath path with refs := number :: s.refs })
      (fun _ _ => True) s := by
  unfold registerSelectionPath
  rw [wp_bind, wp_lift]
  refine ⟨fun (classes, n) hcount => ?_, fun _ _ => trivial⟩
  obtain ⟨hclasses, hn⟩ := countPathClasses_spec [] list hcount
  simp only [List.nil_append, List.toFinset_nil, Finset.card_empty,
    Nat.add_zero] at hclasses hn
  subst hclasses
  dsimp only
  rw [wp_ite]
  refine ⟨fun _ => trivial, fun _ => ?_⟩
  by_cases hnil : pathClasses list = []
  · rw [if_pos hnil, wp_bind]
    apply wp_mono (registerSelPath_withPath [] s) _ (fun _ _ h => h)
    rintro _ t ⟨hclear, rfl⟩
    refine ⟨[], ⟨.done _, ?_, nofun⟩, hclear, rfl⟩
    rw [hnil]
    exact nofun
  · rw [if_neg hnil, wp_bind]
    have hpos : 0 < n := by
      rw [hn, Finset.card_pos]
      obtain ⟨c, hc⟩ := List.exists_mem_of_ne_nil _ hnil
      exact ⟨c, List.mem_toFinset.mpr hc⟩
    have hnone : Elsewhere none inner.qdisc.classInfos := fun _ _ => nofun
    apply wp_mono (findInQdisc_walks _ inner.qdisc hpos [] inner.classes hnone
      s) _ (fun _ _ h => h)
    intro last t hwalk
    rw [wp_ite]
    refine ⟨fun _ => trivial, fun hfound => ?_⟩
    rcases hwalk with ⟨rfl, -⟩ | ⟨-, path, hpath, hmatch, hclear, rfl, -⟩
    · exact absurd rfl hfound
    · rw [hn] at hmatch
      exact ⟨path, hmatch.resolves hpath, hclear, rfl⟩

/-! ## What is registered -/

section

variable {qdiscs : List SelQdisc} {q : SelQdisc} {f : SelQdisc → SelQdisc}
  {a b : Nat}

theorem findQdisc_some (h : findQdisc qdiscs a = some q) :
    q ∈ qdiscs ∧ q.qdisc.address = a := by
  have haddress := List.find?_some h
  exact ⟨List.mem_of_find?_eq_some h, by simpa using haddress⟩

theorem findQdisc_cons (q : SelQdisc) (qdiscs : List SelQdisc) (a : Nat) :
    findQdisc (q :: qdiscs) a =
      if q.qdisc.address = a then some q else findQdisc qdiscs a := by
  simp only [findQdisc, List.find?_cons]
  split
  · rename_i h
    rw [if_pos (by simpa using h)]
  · rename_i h
    rw [if_neg (by simpa using h)]

theorem findQdisc_update (hf : ∀ q, (f q).qdisc = q.qdisc) :
    findQdisc (updateQdisc a f qdiscs) b =
      if b = a then (findQdisc qdiscs a).map f else findQdisc qdiscs b := by
  induction qdiscs with
  | nil => simp [updateQdisc, findQdisc]
  | cons q qdiscs ih =>
      unfold updateQdisc
      split
      · rename_i hq
        rw [findQdisc_cons, findQdisc_cons, findQdisc_cons, hf, hq]
        by_cases hb : b = a
        · simp [hb]
        · simp [hb, Ne.symm hb]
      · rename_i hq
        rw [findQdisc_cons, findQdisc_cons, findQdisc_cons, ih, if_neg hq]
        by_cases hb : b = a
        · simp [hb, hq]
        · simp [hb]

theorem map_updateQdisc {α : Type} {g : SelQdisc → α}
    (hf : ∀ q, g (f q) = g q) :
    (updateQdisc a f qdiscs).map g = qdiscs.map g := by
  induction qdiscs with
  | nil => rfl
  | cons q qdiscs ih =>
      unfold updateQdisc
      split
      · simp [hf]
      · simp [ih]

theorem mem_updateQdisc (h : q ∈ updateQdisc a f qdiscs) :
    q ∈ qdiscs ∨ ∃ q' ∈ qdiscs, q'.qdisc.address = a ∧ q = f q' := by
  induction qdiscs with
  | nil => exact .inl h
  | cons q' qdiscs ih =>
      unfold updateQdisc at h
      split at h
      · rename_i haddress
        rcases List.mem_cons.mp h with rfl | h
        · exact .inr ⟨q', List.mem_cons_self, haddress, rfl⟩
        · exact .inl (List.mem_cons_of_mem _ h)
      · rcases List.mem_cons.mp h with rfl | h
        · exact .inl List.mem_cons_self
        · rcases ih h with h | ⟨q'', hmem, haddress, heq⟩
          · exact .inl (List.mem_cons_of_mem _ h)
          · exact .inr ⟨q'', List.mem_cons_of_mem _ hmem, haddress, heq⟩

end

/-- The classes have different numbers from 1 on. -/
structure SelQdisc.Counted (q : SelQdisc) : Prop where
  gred : q.qdisc.gred = false
  addresses : (q.classes.map (·.info.address)).Nodup
  numbers : (q.classes.map SelClass.number).Nodup
  range : ∀ cl ∈ q.classes, 0 < cl.number ∧ cl.number ≤ q.numClasses

private theorem SelQdisc.Counted.register {q : SelQdisc} (h : q.Counted)
    (cl : ClassInfo) : (q.register cl).Counted ∧
      (q.register cl).qdisc = q.qdisc ∧ q.classes ⊆ (q.register cl).classes ∧
        ∃ c ∈ (q.register cl).classes, c.info.address = cl.address := by
  unfold SelQdisc.register
  split
  · rename_i hany
    obtain ⟨c, hc, haddress⟩ := List.any_eq_true.mp hany
    exact ⟨h, rfl, fun _ hc => hc, c, hc, by simpa using haddress⟩
  · rename_i hnone
    rw [if_neg (by simp [h.gred])]
    refine ⟨⟨h.gred, ?_, ?_, ?_⟩, rfl, List.subset_cons_self _ _,
      ⟨cl, q.numClasses + 1⟩, List.mem_cons_self, rfl⟩
    · rw [List.map_cons, List.nodup_cons]
      refine ⟨fun hmem => hnone ?_, h.addresses⟩
      obtain ⟨c, hc, heq⟩ := List.mem_map.mp hmem
      exact List.any_eq_true.mpr ⟨c, hc, by simpa using heq⟩
    · rw [List.map_cons, List.nodup_cons]
      refine ⟨fun hmem => ?_, h.numbers⟩
      obtain ⟨c, hc, heq⟩ := List.mem_map.mp hmem
      have := (h.range c hc).2
      dsimp only at heq
      omega
    · intro c hc
      rcases List.mem_cons.mp hc with rfl | hc
      · exact ⟨Nat.succ_pos _, Nat.le_refl _⟩
      · exact ⟨(h.range c hc).1, Nat.le_succ_of_le (h.range c hc).2⟩

/-- A class that has its number. -/
def HasNumber (qdiscs : List SelQdisc) (cl : ClassInfo) : Prop :=
  ∃ q, findQdisc qdiscs cl.parent.address = some q ∧
    ∃ c ∈ q.classes, c.info.address = cl.address

/-- Different qdiscs with the classes that were registered for them. -/
structure CountedQdiscs (qdiscs : List SelQdisc) : Prop where
  addresses : (qdiscs.map (·.qdisc.address)).Nodup
  counted : ∀ q ∈ qdiscs, q.Counted

/-- What registering classes does to the qdiscs. -/
structure Registers (qdiscs : List SelQdisc) (path : List ClassInfo)
    (qdiscs' : List SelQdisc) : Prop where
  counted : CountedQdiscs qdiscs'
  numbered : ∀ cl ∈ path, HasNumber qdiscs' cl
  keeps : ∀ cl, HasNumber qdiscs cl → HasNumber qdiscs' cl
  addresses : ∀ q ∈ qdiscs', q.qdisc.address ∈ qdiscs.map (·.qdisc.address) ∨
    q.qdisc.address ∈ path.map (·.parent.address)

private theorem registerSelClass_registers {qdiscs : List SelQdisc}
    (h : CountedQdiscs qdiscs) (cl : ClassInfo)
    (hgred : cl.parent.gred = false) :
    Registers qdiscs [cl] (registerSelClass qdiscs cl) := by
  unfold registerSelClass
  cases hfind : findQdisc qdiscs cl.parent.address with
  | none =>
      have hempty : SelQdisc.Counted
          { qdisc := cl.parent, classes := [], numClasses := 0 } :=
        ⟨hgred, List.nodup_nil, List.nodup_nil,
          fun _ hc => (List.not_mem_nil hc).elim⟩
      obtain ⟨hcounted, hqdisc, -, hcl⟩ := hempty.register cl
      have hfresh : ∀ q ∈ qdiscs, q.qdisc.address ≠ cl.parent.address := by
        intro q hq heq
        have := List.find?_eq_none.mp hfind q hq
        exact this (by simpa using heq)
      constructor
      case counted =>
        constructor
        · rw [List.map_cons, List.nodup_cons, hqdisc]
          refine ⟨fun hmem => ?_, h.addresses⟩
          obtain ⟨q, hq, heq⟩ := List.mem_map.mp hmem
          exact hfresh q hq heq
        · intro q hq
          rcases List.mem_cons.mp hq with rfl | hq
          · exact hcounted
          · exact h.counted q hq
      case numbered =>
        intro cl' hcl'
        cases List.mem_singleton.mp hcl'
        refine ⟨_, ?_, hcl⟩
        rw [findQdisc_cons, if_pos (by rw [hqdisc])]
      case keeps =>
        rintro cl' ⟨q, hq, hcl'⟩
        refine ⟨q, ?_, hcl'⟩
        obtain ⟨hmem, haddress⟩ := findQdisc_some hq
        rw [findQdisc_cons, hqdisc, if_neg, hq]
        exact fun heq => hfresh q hmem (haddress.trans heq.symm)
      case addresses =>
        intro q hq
        rcases List.mem_cons.mp hq with rfl | hq
        · right
          rw [hqdisc]
          exact List.mem_singleton_self _
        · exact .inl (List.mem_map_of_mem hq)
  | some q =>
      obtain ⟨hmem, haddress⟩ := findQdisc_some hfind
      have hqdisc (q : SelQdisc) : (q.register cl).qdisc = q.qdisc := by
        unfold SelQdisc.register
        split
        · rfl
        · split <;> rfl
      obtain ⟨-, -, -, hcl⟩ := (h.counted q hmem).register cl
      constructor
      case counted =>
        constructor
        · rw [map_updateQdisc fun q => by rw [hqdisc]]
          exact h.addresses
        · intro q' hq'
          rcases mem_updateQdisc hq' with hq' | ⟨q'', hq'', -, rfl⟩
          · exact h.counted q' hq'
          · exact ((h.counted q'' hq'').register cl).1
      case numbered =>
        intro cl' hcl'
        cases List.mem_singleton.mp hcl'
        refine ⟨q.register cl, ?_, hcl⟩
        rw [findQdisc_update hqdisc, if_pos rfl, hfind]
        rfl
      case keeps =>
        rintro cl' ⟨q', hq', c, hc, hclass⟩
        by_cases hsame : cl'.parent.address = cl.parent.address
        · rw [hsame, hfind] at hq'
          cases hq'
          refine ⟨q.register cl, ?_, c, ?_, hclass⟩
          · rw [findQdisc_update hqdisc, if_pos hsame, hfind]
            rfl
          · exact ((h.counted q hmem).register cl).2.2.1 hc
        · refine ⟨q', ?_, c, hc, hclass⟩
          rw [findQdisc_update hqdisc, if_neg hsame, hq']
      case addresses =>
        intro q' hq'
        left
        have hmem' := List.mem_map_of_mem (f := (·.qdisc.address)) hq'
        rwa [map_updateQdisc fun q => by rw [hqdisc]] at hmem'

private theorem registerSelClass_foldl {qdiscs : List SelQdisc}
    (h : CountedQdiscs qdiscs) (path : List ClassInfo)
    (hgred : ∀ cl ∈ path, cl.parent.gred = false) :
    Registers qdiscs path (path.foldl registerSelClass qdiscs) := by
  induction path generalizing qdiscs with
  | nil =>
      exact ⟨h, fun _ hc => (List.not_mem_nil hc).elim, fun _ hc => hc,
        fun q hq => .inl (List.mem_map_of_mem hq)⟩
  | cons cl path ih =>
      have hfirst := registerSelClass_registers h cl
        (hgred cl List.mem_cons_self)
      have hrest := ih hfirst.counted fun cl' hcl' =>
        hgred cl' (List.mem_cons_of_mem _ hcl')
      constructor
      case counted => exact hrest.counted
      case numbered =>
        intro cl' hcl'
        rcases List.mem_cons.mp hcl' with rfl | hcl'
        · exact hrest.keeps _ (hfirst.numbered _ (List.mem_singleton_self _))
        · exact hrest.numbered cl' hcl'
      case keeps => exact fun cl' hcl' => hrest.keeps cl' (hfirst.keeps cl' hcl')
      case addresses =>
        intro q hq
        rw [List.map_cons, List.mem_cons]
        rcases hrest.addresses q hq with hq | hq
        · obtain ⟨q', hq', heq⟩ := List.mem_map.mp hq
          rw [← heq]
          rcases hfirst.addresses q' hq' with hq' | hq'
          · exact .inl hq'
          · exact .inr (.inl (List.mem_singleton.mp hq'))
        · exact .inr (.inr hq)

/-! ## Paths that are the same -/

/-- Equal paths are told apart by their indices. -/
def Indexed : List SelPath → Prop
  | [] => True
  | p :: paths =>
      p.index = paths.countP (fun walk => samePath walk.path p.path) ∧
        p.index < p.equals ∧ Indexed paths

private theorem Indexed.map {paths : List SelPath} (h : Indexed paths)
    {f : SelPath → SelPath} (hpath : ∀ p, (f p).path = p.path)
    (hindex : ∀ p, (f p).index = p.index)
    (hequals : ∀ p, p.equals ≤ (f p).equals) : Indexed (paths.map f) := by
  induction paths with
  | nil => trivial
  | cons p paths ih =>
      obtain ⟨hp, hless, hrest⟩ := h
      refine ⟨?_, ?_, ih hrest⟩
      · rw [hindex, hpath, hp, List.countP_map]
        apply List.countP_congr
        intro walk _
        rw [Function.comp_apply, hpath]
      · rw [hindex]
        exact Nat.lt_of_lt_of_le hless (hequals p)

theorem Indexed.add {paths : List SelPath} (h : Indexed paths)
    (path : List ClassInfo) : Indexed (addSelPath path paths) := by
  have hsame (walk : SelPath) : (if samePath walk.path path then
      { walk with equals := walk.equals + 1 } else walk).path = walk.path := by
    split <;> rfl
  refine ⟨?_, Nat.lt_succ_self _, h.map hsame (fun walk => ?_) fun walk => ?_⟩
  · rw [List.countP_map]
    apply List.countP_congr
    intro walk _
    rw [Function.comp_apply, hsame]
  · split <;> rfl
  · split
    · exact Nat.le_succ _
    · exact Nat.le_refl _

/-! ## All paths -/

/-- What is known before numbers are assigned: a path for each class that
selects one. -/
structure Prepared (inner : InnerTree) (selecting : List OuterClass)
    (s : State) : Prop where
  qdiscs : CountedQdiscs s.qdiscs
  unfiltered : ∀ q ∈ s.qdiscs, s.filters q.qdisc.address = []
  indexed : Indexed s.paths
  numbered : ∀ p ∈ s.paths, ∀ cl ∈ p.path, HasNumber s.qdiscs cl
  refs : s.refs = selecting.map OuterClass.address
  resolved : List.Forall₂ (fun cl p => ∃ list, cl.selPath = some list ∧
    Resolves inner.qdisc (pathClasses list) p.path) selecting s.paths

theorem QdiscPath.parents {inner : InnerQdisc} {path : List ClassInfo}
    (h : QdiscPath inner path) (howned : Owned inner) :
    ∀ cl ∈ path, cl.parent ∈ inner.qdiscs := by
  induction h with
  | done => exact fun _ h => (List.not_mem_nil h).elim
  | step hmem hpath ih =>
      obtain ⟨hparent, hbelow⟩ := members_ownedBy howned _ hmem
      intro cl hcl
      rcases List.mem_cons.mp hcl with rfl | hcl
      · rw [hparent]
        exact List.mem_cons_self
      · exact List.mem_cons_of_mem _
          ((members_sublist hmem).2.subset (ih hbelow cl hcl))

/-- A path goes through different qdiscs. -/
theorem QdiscPath.parents_nodup {inner : InnerQdisc} {path : List ClassInfo}
    (h : QdiscPath inner path) (howned : Owned inner)
    (hnodup : (inner.qdiscs.map QdiscInfo.address).Nodup) :
    (path.map (·.parent.address)).Nodup := by
  induction h with
  | done => exact List.nodup_nil
  | step hmem hpath ih =>
      obtain ⟨hparent, hbelow⟩ := members_ownedBy howned _ hmem
      obtain ⟨-, hsub⟩ := members_sublist hmem
      rw [Qdisc.qdiscs, List.map_cons, List.nodup_cons] at hnodup
      rw [List.map_cons, List.nodup_cons]
      refine ⟨fun hin => ?_, ih hbelow (hnodup.2.sublist (hsub.map _))⟩
      obtain ⟨cl', hcl', heq⟩ := List.mem_map.mp hin
      apply hnodup.1
      rw [← hparent, ← heq]
      exact List.mem_map_of_mem (hsub.subset (hpath.parents hbelow cl' hcl'))

section

variable (inner : InnerTree) (hgred : ∀ q ∈ inner.qdisc.qdiscs, q.gred = false)

include hgred

private theorem Prepared.add {selecting : List OuterClass} {s : State}
    (h : Prepared inner selecting s) {cl : OuterClass} {list : List PathRef}
    (hlist : cl.selPath = some list) {path : List ClassInfo}
    (hpath : Resolves inner.qdisc (pathClasses list) path)
    (hclear : s.Unfiltered path) :
    Prepared inner (cl :: selecting)
      { s.withPath path with refs := cl.address :: s.refs } := by
  have hregisters := registerSelClass_foldl h.qdiscs path.reverse
    fun cl hcl => hgred _ (hpath.isPath.parents inner.owned cl
      (List.mem_reverse.mp hcl))
  constructor
  case qdiscs => exact hregisters.counted
  case unfiltered =>
    intro q hq
    rcases hregisters.addresses q hq with hq | hq
    · obtain ⟨q', hq', heq⟩ := List.mem_map.mp hq
      rw [← heq]
      exact h.unfiltered q' hq'
    · obtain ⟨cl', hcl', heq⟩ := List.mem_map.mp hq
      rw [← heq]
      exact hclear cl' (List.mem_reverse.mp hcl')
  case indexed => exact h.indexed.add path
  case numbered =>
    intro p hp cl' hcl'
    rcases List.mem_cons.mp hp with rfl | hp
    · exact hregisters.numbered cl' (List.mem_reverse.mpr hcl')
    · obtain ⟨p', hp', rfl⟩ := List.mem_map.mp hp
      apply hregisters.keeps
      apply h.numbered p' hp'
      split at hcl' <;> exact hcl'
  case refs =>
    rw [List.map_cons, ← h.refs]
  case resolved =>
    refine .cons ⟨list, hlist, hpath⟩ ?_
    rw [List.forall₂_map_right_iff]
    apply h.resolved.imp
    rintro cl' p ⟨list', hlist', hpath'⟩
    refine ⟨list', hlist', ?_⟩
    split <;> exact hpath'

theorem registerClasses_prepares (classes : List OuterClass)
    {selecting : List OuterClass} {s : State}
    (h : Prepared inner selecting s) :
    wp (registerClasses inner.qdisc classes)
      (fun _ t => t.numbers = s.numbers ∧ t.filters = s.filters ∧ Prepared inner
        ((classes.filter (·.selPath.isSome)).reverse ++ selecting) t)
      (fun _ _ => True) s := by
  induction classes generalizing selecting s with
  | nil => exact ⟨rfl, rfl, h⟩
  | cons cl classes ih =>
      unfold registerClasses
      cases hlist : cl.selPath with
      | none =>
          apply wp_mono (ih h) _ (fun _ _ h => h)
          intro _ t ht
          simpa [hlist] using ht
      | some list =>
          dsimp only
          rw [wp_bind, wp_get, wp_ite]
          refine ⟨fun _ => trivial, fun _ => ?_⟩
          rw [wp_bind]
          apply wp_mono (registerSelectionPath_resolves inner _ _ s) _
            (fun _ _ h => h)
          rintro _ t ⟨path, hpath, hclear, rfl⟩
          apply wp_mono (ih (h.add inner hgred hlist hpath hclear)) _
            (fun _ _ h => h)
          intro _ u hu
          simpa [hlist, State.withPath] using hu

end

end Tcng.Csp
