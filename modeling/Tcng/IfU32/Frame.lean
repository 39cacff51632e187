import Tcng.IfU32.Dump

/-! What the parts of an action that print no line of their own leave as it
is, and which of them cannot fail for lack of a rule. -/

namespace Tcng.IfU32

open Program

/-- The assertion that the stack is not empty. -/
def ruleStackFails : Error := .assertion "rule_stack"

/-- Where a line puts a rule, or which table it makes, and the table it links
to. -/
def Line.place (line : Line) : Selector × Option Handle :=
  (line.selector, line.link)

/-- Nothing changes that rules and tables depend on. -/
structure Idle (s t : State) : Prop where
  isMeta : t.isMeta = s.isMeta
  ruleStack : t.ruleStack = s.ruleStack
  steps : t.steps = s.steps
  handle : t.handle = s.handle
  cached : t.cached = s.cached
  cachedHandle : t.cachedHandle = s.cachedHandle
  currHandle : t.currHandle = s.currHandle
  output : t.output = s.output
  line : t.line.map Line.place = s.line.map Line.place

abbrev Idles {α : Type} (x : Emit α) : Prop :=
  Relates x Idle fun e _ _ => e ≠ ruleStackFails

theorem Idle.refl (s : State) : Idle s s :=
  ⟨rfl, rfl, rfl, rfl, rfl, rfl, rfl, rfl, rfl⟩

theorem idle_composes :
    Composes Idle fun (e : Error) _ _ => e ≠ ruleStackFails where
  refl := Idle.refl
  trans h h' := ⟨h'.isMeta.trans h.isMeta, h'.ruleStack.trans h.ruleStack,
    h'.steps.trans h.steps, h'.handle.trans h.handle, h'.cached.trans h.cached,
    h'.cachedHandle.trans h.cachedHandle, h'.currHandle.trans h.currHandle,
    h'.output.trans h.output, h'.line.trans h.line⟩
  fails _ h := h

theorem idle_get : Idles get := .get idle_composes

theorem idle_pure {α : Type} (a : α) : Idles (pure a) := .pure idle_composes a

theorem idle_bind {α β : Type} {x : Emit α} {f : α → Emit β} (hx : Idles x)
    (hf : ∀ a, Idles (f a)) : Idles (x >>= f) := .bind idle_composes hx hf

theorem idle_throw {α : Type} {e : Error} (h : e ≠ ruleStackFails) :
    Idles (throw e : Emit α) := fun _ => h

theorem idle_modify (f : State → State) (h : ∀ s, Idle s (f s)) :
    Idles (modify f) := h

theorem idle_tcMore (f : Line → Line)
    (h : ∀ line, (f line).place = line.place) : Idles (tcMore f) := by
  intro s
  refine ⟨rfl, rfl, rfl, rfl, rfl, rfl, rfl, rfl, ?_⟩
  change (s.line.map f).map Line.place = _
  rw [Option.map_map]
  apply congrArg (Option.map · s.line)
  funext line
  exact h line

section

variable {Q : Unit → State → Prop} {E : Error → State → Prop}

theorem wp_newHandle {Q : Handle → State → Prop} (s : State) :
    wp newHandle Q E s ↔ Q (s.handle + 0x100000) { s with
      handle := s.handle + 0x100000
      steps := s.steps ++ [Step.newHandle s.handle] } := by
  unfold newHandle step
  simp only [wp_bind, wp_get, wp_modify, wp_pure]

theorem wp_tcFilterAdd (protocol : BitVec 16) (selector : Selector)
    (s : State) :
    wp (tcFilterAdd protocol selector) Q E s ↔ Q () { s with
      line := some
        { protocol, prioOffset := s.prioOffset, selector } } := Iff.rfl

theorem wp_tcNl (s : State) :
    wp tcNl Q E s ↔ Q () { s with
      line := none
      output := s.output ++ s.line.toList } := Iff.rfl

theorem popRule_cons {s : State} {rule : Rule} {prev : List Rule}
    (h : s.ruleStack = rule :: prev) :
    wp popRule Q E s ↔ Q () { s with ruleStack := prev } := by
  unfold popRule
  rw [wp_bind, wp_get, h]
  rfl

theorem popRule_nil {s : State} (h : s.ruleStack = []) :
    wp popRule Q E s ↔ E ruleStackFails s := by
  unfold popRule
  rw [wp_bind, wp_get, h]
  rfl

end

/-! ## Failures of what is not a program -/

/-- The stack is not what fails. -/
def Clean {α : Type} (x : Except Error α) : Prop := x ≠ .error ruleStackFails

theorem clean_bind {α β : Type} {x : Except Error α}
    {f : α → Except Error β} (hx : Clean x) (hf : ∀ a, Clean (f a)) :
    Clean (x >>= f) := by
  cases x with
  | ok a => exact hf a
  | error e =>
      intro h
      apply hx
      cases h
      rfl

theorem clean_ok {α : Type} (a : α) : Clean (.ok a : Except Error α) :=
  nofun

/-- Where nothing was found, nothing more is done. -/
theorem clean_after {α β : Type} {x : Except Error (Option α)}
    {f : Option α → Except Error (Option β)} (hx : Clean x)
    (hnone : f none = .ok none) (hsome : ∀ a, Clean (f (some a))) :
    Clean (x >>= f) := by
  apply clean_bind hx
  rintro (_ | a)
  · rw [hnone]
    exact clean_ok _
  · exact hsome a

theorem clean_error {α : Type} {e : Error} (h : e ≠ ruleStackFails) :
    Clean (.error e : Except Error α) := fun he => h (Except.error.inj he)

theorem clean_ite {α : Type} {c : Prop} [Decidable c]
    {x y : Except Error α} (hx : Clean x) (hy : Clean y) :
    Clean (if c then x else y) := by
  split
  · exact hx
  · exact hy

theorem clean_makeLeaf (d : Decision) : Clean (makeLeaf d) := by
  cases d with
  | drReclassify => exact clean_error nofun
  | _ => exact clean_ok _

theorem clean_addActions (d next otherwise : Data) :
    Clean (addActions d next otherwise) := by
  fun_induction addActions d next otherwise with
  | case1 next otherwise t a b c ih => exact ih
  | case2 next otherwise t a b c ih => exact ih
  | case3 next otherwise t p b c ih ih' =>
      exact clean_bind ih fun _ => clean_bind ih' fun _ => clean_ok _
  | case4 next otherwise t p b c ih => exact clean_bind ih fun _ => clean_ok _
  | case5 next otherwise d => exact clean_makeLeaf d
  | case6 => exact clean_error nofun

theorem clean_getAction (toDecision : Class → Nat) (d : Data)
    (db : ActionDb) : Clean (db.getAction toDecision d) := by
  apply clean_bind (clean_addActions _ _ _)
  exact fun _ => clean_ok _

theorem clean_mapIndex (pos : List Char) : Clean (mapIndex pos) := by
  cases pos with
  | nil => exact clean_error (by decide)
  | cons c pos => exact clean_ite (clean_ok _) (clean_error (by decide))

theorem clean_storeValue (val : MapValue) (pos : List Char)
    (mem : MapMem) : Clean (storeValue val pos mem) := by
  apply clean_bind (clean_mapIndex pos)
  intro (n, pos)
  dsimp only
  split
  · exact clean_ite (clean_ok _) (clean_ok _)
  · exact clean_ok _

theorem clean_walkTree (peakrate : Bucket → Bool)
    (overflow : Bucket → Option Bucket) (actions : ActionDb) (fuel : Nat)
    (act : Option Nat) (pos : List Char) (mem : MapMem) :
    Clean (walkTree peakrate overflow actions fuel act pos mem) := by
  induction fuel generalizing act pos mem with
  | zero => exact clean_error (by rintro ⟨⟩)
  | succ fuel ih =>
      unfold walkTree
      split
      · rename_i node c pos hnode
        apply clean_ite
        · split
          · refine clean_ite (clean_ok _)
              (clean_after (clean_storeValue _ _ _) rfl fun _ => ?_)
            dsimp only
            split
            · refine clean_after (clean_storeValue _ _ _) rfl fun _ => ?_
              exact clean_after (ih _ _ _) rfl fun _ => ih _ _ _
            all_goals
              refine clean_after (clean_ok _) rfl fun _ => ?_
              exact clean_after (ih _ _ _) rfl fun _ => ih _ _ _
          · exact clean_ok _
        · apply clean_ite
          · split
            · exact clean_ite (clean_ok _)
                (clean_after (clean_storeValue _ _ _) rfl fun _ => ih _ _ _)
            · exact clean_ok _
          · apply clean_ite (clean_ite (clean_ok _) (clean_ok _))
            apply clean_ite
            · split
              · exact clean_storeValue _ _ _
              · exact clean_ok _
            · apply clean_ite (clean_ite (clean_ok _) (clean_ok _))
              exact clean_error (by decide)
      · exact clean_error (by decide)

theorem clean_mapActions (peakrate : Bucket → Bool)
    (overflow : Bucket → Option Bucket) (actions : ActionDb) (act : Nat)
    (atEnd : Bool) (entries : List (String × String)) :
    Clean (mapActions peakrate overflow actions act atEnd entries) := by
  induction entries with
  | nil => exact clean_ok _
  | cons entry entries ih =>
      unfold mapActions
      apply clean_bind (clean_walkTree _ _ _ _ _ _ _)
      intro left
      split
      · exact clean_ok _
      · exact clean_ite (clean_ok _) ih
      · exact ih

/-- What an action is mapped to comes from the table. -/
theorem mapActions_mem {peakrate : Bucket → Bool}
    {overflow : Bucket → Option Bucket} {actions : ActionDb} {act : Nat}
    {atEnd : Bool} {entries : List (String × String)} {out : List Char}
    {mem : MapMem}
    (h : mapActions peakrate overflow actions act atEnd entries =
      .ok (some (out, mem))) : ∃ entry ∈ entries, out = entry.2.toList := by
  induction entries with
  | nil => cases h
  | cons entry entries ih =>
      have hrest (h : mapActions peakrate overflow actions act atEnd entries =
          .ok (some (out, mem))) :
          ∃ entry' ∈ entry :: entries, out = entry'.2.toList := by
        obtain ⟨entry', hmem, heq⟩ := ih h
        exact ⟨entry', List.mem_cons_of_mem _ hmem, heq⟩
      unfold mapActions at h
      obtain ⟨left, -, h⟩ := bind_eq_ok.mp h
      split at h
      · cases h
        exact ⟨entry, List.mem_cons_self, rfl⟩
      · split at h
        · cases h
          exact ⟨entry, List.mem_cons_self, rfl⟩
        · exact hrest h
      · exact hrest h

theorem clean_findPolicer (tC : Bucket) (tP : Option Bucket)
    (policers : List Police) (i : Nat) :
    Clean (findPolicer tC tP policers i) := by
  induction policers generalizing i with
  | nil => exact clean_ok _
  | cons pol policers ih =>
      refine clean_ite (clean_ok _) ?_
      refine clean_ite (clean_error nofun) ?_
      exact clean_ite (clean_error nofun) (ih _)

theorem clean_toIpv6 (d : Data) : Clean d.toIpv6 := by
  unfold Data.toIpv6
  split
  all_goals first | exact clean_ok _ | exact clean_error nofun

theorem clean_varMask (mask : Option U128) (d : Data) :
    Clean (varMask mask d) := by
  fun_induction varMask mask d with
  | case1 mask t a b c old hc ih =>
      exact clean_bind (clean_toIpv6 a) fun n => ih n
  | case2 => exact clean_error nofun
  | case3 mask t a b c old hc hb ih =>
      exact clean_bind (clean_toIpv6 b) fun n => ih n
  | case4 => exact clean_ok _

theorem clean_tcMatch (bits : Nat) (c : Comparison) :
    Clean (tcMatch bits c) := by
  apply clean_ite (clean_ok _)
  apply clean_bind
  · exact clean_ite (clean_error nofun) (clean_ok _)
  · exact fun _ => clean_ok _

theorem clean_tcMatchWords (left : Nat) (c : Comparison) :
    Clean (tcMatchWords left c) := by
  induction left generalizing c with
  | zero => exact clean_ok _
  | succ left ih =>
      apply clean_ite
      · exact clean_bind (clean_tcMatch _ _) fun c => ih c
      · exact clean_ok _

theorem clean_tcMatchAll (c : Comparison) : Clean (tcMatchAll c) := by
  apply clean_bind (clean_tcMatchWords _ _); intro c
  apply clean_bind (clean_tcMatch _ _); intro c
  apply clean_bind (clean_tcMatchWords _ _); intro c
  apply clean_bind (clean_tcMatch _ _); intro c
  apply clean_bind (clean_tcMatch _ _); intro c
  apply clean_bind (clean_tcMatchWords _ _); intro c
  apply clean_bind (clean_tcMatch _ _); intro c
  apply clean_bind (clean_tcMatchWords _ _); intro c
  exact clean_tcMatch _ _

theorem clean_dumpEq (constant var : Data) (keys : List Key) :
    Clean (dumpEq constant var keys) := by
  refine clean_ite (clean_error nofun) ?_
  refine clean_ite (clean_error nofun) ?_
  apply clean_bind (clean_varMask _ _)
  intro (var, mask)
  dsimp only
  split
  · refine clean_ite (clean_error nofun) ?_
    apply clean_bind (clean_toIpv6 _)
    intro value
    apply clean_ite (clean_ok _)
    apply clean_bind (clean_tcMatchAll _)
    exact fun c => clean_ite (clean_error nofun) (clean_ok _)
  · exact clean_error nofun

theorem clean_offShift (off : Data) (shift : Int) :
    Clean (offShift off shift) := by
  fun_induction offShift off shift with
  | case1 => exact clean_error nofun
  | case2 _ _ _ _ _ _ ih => exact ih
  | case3 => exact clean_error nofun
  | case4 _ _ _ _ _ _ ih => exact ih
  | case5 => exact clean_ok _

theorem clean_offMask (off : Data) : Clean (offMask off) := by
  unfold offMask
  split
  · dsimp only
    refine clean_ite (clean_bind (clean_ok _) ?_)
      (clean_ite (clean_bind (clean_error nofun) ?_)
        (clean_bind (clean_ok _) ?_))
    all_goals exact fun _ => clean_ite (clean_error nofun) (clean_ok _)
  · exact clean_ok _

theorem clean_variableOffset (off : Data) :
    Clean (variableOffset off) := by
  apply clean_bind (clean_offShift _ _)
  intro (off, shift)
  apply clean_bind (clean_offMask _)
  intro (off, mask)
  dsimp only
  split
  · refine clean_ite (clean_error nofun) ?_
    split
    all_goals
      refine clean_ite (clean_error nofun) ?_
      refine clean_ite (clean_error nofun) ?_
      refine clean_ite (clean_error nofun) ?_
      exact clean_ite (clean_error (by decide)) (clean_ok _)
  · exact clean_error nofun

/-! ## Parts of actions -/

theorem idle_lift {α : Type} {x : Except Error α} (h : Clean x) :
    Idles (lift x) := by
  apply Relates.lift idle_composes
  intro e s he heq
  exact h (heq ▸ he)

theorem idle_makePolicer (tC : Bucket) (tP burst : Option Bucket)
    (clone : Bool) : Idles (makePolicer tC tP burst clone) := by
  apply idle_bind idle_get
  intro s
  refine Relates.ite (fun _ => idle_bind (idle_pure _) ?_) fun _ =>
    idle_bind (idle_lift (clean_findPolicer _ _ _ _)) ?_
  all_goals
    intro found
    cases found with
    | some i => exact idle_pure _
    | none =>
        refine idle_bind (idle_modify _ fun _ => ?_) fun _ => idle_pure _
        exact ⟨rfl, rfl, rfl, rfl, rfl, rfl, rfl, rfl, rfl⟩

theorem idle_getValue (pos : List Char) : Idles (getValue pos) := by
  apply idle_bind (idle_lift (clean_mapIndex pos))
  intro (n, pos)
  apply idle_bind idle_get
  intro s
  split
  · exact idle_pure _
  · exact idle_throw (by decide)

theorem idle_getBucket (pos : List Char) : Idles (getBucket pos) := by
  apply idle_bind (idle_getValue pos)
  intro (val, pos)
  cases val with
  | police p => exact idle_pure _
  | «class» c => exact idle_throw (by decide)

theorem idle_getBurst (out : List Char) : Idles (getBurst out) := by
  unfold getBurst
  split
  · exact idle_bind (idle_getBucket _) fun _ => idle_pure _
  · exact idle_pure _

theorem idle_issueDecision (out : List Char) (dec : Profile) :
    Idles (issueDecision out dec) := by
  have hissue (new : Profile) (out : List Char) (class' : Option Class) :
      Idles (if dec ≠ .pdInvalid ∧ dec ≠ new then
          throw (.error "policer decision changed")
        else pure (new, class', out) :
          Emit (Profile × Option Class × List Char)) :=
    Relates.ite (fun _ => idle_throw nofun) fun _ => idle_pure _
  unfold issueDecision
  dsimp only
  split
  · refine Relates.ite (fun _ => idle_throw nofun) fun _ => ?_
    apply idle_bind (idle_getValue _)
    intro (val, out)
    cases val with
    | police p => exact idle_throw (by decide)
    | «class» toClass => exact hissue _ _ _
  · exact hissue _ _ _
  · exact hissue _ _ _
  · exact idle_throw (by decide)

/-! ## Lines of actions

All lines of an action are printed alike: a rule is begun, or begun again, and
then the line ends. -/

/-- What holds before, while and after a line is printed. -/
structure LineRule (again : Bool) (A B C : State → Prop)
    (E : Error → State → Prop) : Prop where
  before : ∀ {s t}, A s → Idle s t → A t
  begun : ∀ {s}, A s → wp (dumpMatchIf again) (fun _ => B) E s
  within : ∀ {s t}, B s → Idle s t → B t
  ended : ∀ {s}, B s → C { s with
    line := none
    output := s.output ++ s.line.toList }
  fails : ∀ {e s}, e ≠ ruleStackFails → E e s

/-- Parts that print nothing do not count. -/
theorem wp_idle {α β : Type} {P : State → Prop} {Q : β → State → Prop}
    {E : Error → State → Prop} {x : Emit α} {f : α → Emit β} {s : State}
    (hx : Idles x) (hP : ∀ {s t}, P s → Idle s t → P t)
    (hE : ∀ {e s}, e ≠ ruleStackFails → E e s) (hs : P s)
    (hf : ∀ a t, P t → wp (f a) Q E t) : wp (x >>= f) Q E s := by
  rw [wp_bind]
  apply wp_mono (hx s)
  · exact fun a t hst => hf a t (hP hs hst)
  · exact fun e t he => hE he

namespace LineRule

variable {again : Bool} {A B C : State → Prop} {E : Error → State → Prop}
  {mpu : Bucket → Option Nat} {anyClass : Class}

theorem wp_tcNl {α : Type} (h : LineRule again A B C E) {s : State} (hs : B s)
    (a : α) : wp (do tcNl; pure a) (fun _ => C) E s := h.ended hs

theorem wp_issuePolicer (h : LineRule again A B C E) (police : Police)
    (out : List Char) {s : State} (hs : A s) :
    wp (issuePolicer anyClass police out again) (fun _ => B) E s := by
  unfold issuePolicer
  rw [wp_bind]
  apply wp_mono (h.begun hs) _ (fun _ _ he => he)
  intro _ t ht
  apply wp_idle (idle_issueDecision _ _) h.within h.fails ht
  intro (inProfile, class1, out) t ht
  apply wp_idle (idle_issueDecision _ _) h.within h.fails ht
  intro (outProfile, class2, out) t ht
  rw [wp_ite]
  refine ⟨fun _ => h.fails (by decide), fun _ => ?_⟩
  refine wp_idle (idle_tcMore _ fun _ => rfl) h.within h.fails ht ?_
  exact fun _ t ht => ht

theorem wp_issuePolicerAt (h : LineRule again A B C E) (i : Nat)
    (out : List Char) {s : State} (hs : A s) :
    wp (issuePolicerAt anyClass i out again) (fun _ => B) E s := by
  unfold issuePolicerAt
  rw [wp_bind, wp_get]
  split
  · exact h.fails (by decide)
  · rw [wp_bind]
    apply wp_mono (h.wp_issuePolicer _ _ hs) _ (fun _ _ he => he)
    intro (police, out) t ht
    rw [wp_bind, wp_modify]
    exact h.within ht ⟨rfl, rfl, rfl, rfl, rfl, rfl, rfl, rfl, rfl⟩

/-- The first part of an output prints a line unless it says not to. -/
theorem wp_issueActions (h : LineRule again A B C E) {out rest : List Char}
    {c : Char} (hout : out.dropWhile (· == ' ') = c :: rest)
    (hc : c = 'p' ∨ c = 'P' ∨ c = 'c' ∨ c = 'D') {s : State} (hs : A s) :
    wp (issueActions mpu anyClass out again) (fun _ => C) E s := by
  unfold issueActions
  rw [hout]
  dsimp only
  rcases hc with rfl | rfl | rfl | rfl
  · simp only [if_true]
    apply wp_idle (idle_getBucket _) h.before h.fails hs
    intro (p0, out) s hs
    apply wp_idle (idle_getBurst _) h.before h.fails hs
    intro (burst, out) s hs
    apply wp_idle (idle_makePolicer _ _ _ _) h.before h.fails hs
    intro i s hs
    rw [wp_bind]
    apply wp_mono (h.wp_issuePolicerAt _ _ hs) _ (fun _ _ he => he)
    exact fun out t ht => h.wp_tcNl ht _
  · simp only [if_true, Char.reduceEq, if_false]
    apply wp_idle (idle_getBucket _) h.before h.fails hs
    intro (p0, out) s hs
    apply wp_idle (idle_getBurst _) h.before h.fails hs
    intro (burst, out) s hs
    apply wp_idle (idle_getBucket _) h.before h.fails hs
    intro (p1, out) s hs
    rw [wp_ite]
    refine ⟨fun _ => h.fails nofun, fun _ => ?_⟩
    apply wp_idle (idle_makePolicer _ _ _ _) h.before h.fails hs
    intro i s hs
    rw [wp_bind]
    apply wp_mono (h.wp_issuePolicerAt _ _ hs) _ (fun _ _ he => he)
    exact fun out t ht => h.wp_tcNl ht _
  · simp only [if_true, Char.reduceEq, if_false]
    rw [wp_bind]
    apply wp_mono (h.begun hs) _ (fun _ _ he => he)
    intro _ t ht
    apply wp_idle (idle_getValue _) h.within h.fails ht
    intro (val, out) t ht
    cases val with
    | police p => exact h.fails (by decide)
    | «class» toClass =>
        refine wp_idle (idle_tcMore _ fun _ => rfl) h.within h.fails ht ?_
        exact fun _ t ht => h.wp_tcNl ht _
  · simp only [if_true, Char.reduceEq, if_false]
    rw [wp_bind]
    apply wp_mono (h.wp_issuePolicer _ _ hs) _ (fun _ _ he => he)
    exact fun (_, out) t ht => h.wp_tcNl ht _

/-- Further parts print a line again or do nothing. -/
theorem wp_issueActions_again (h : LineRule true C B C E) (out : List Char)
    {s : State} (hs : C s) :
    wp (issueActions mpu anyClass out true) (fun _ => C) E s := by
  cases hout : out.dropWhile (· == ' ') with
  | nil =>
      unfold issueActions
      rw [hout]
      exact hs
  | cons c rest =>
      by_cases hc : c = 'p' ∨ c = 'P' ∨ c = 'c' ∨ c = 'D'
      · exact h.wp_issueActions hout hc hs
      · unfold issueActions
        rw [hout]
        simp only [not_or] at hc
        simp only [hc, if_false]
        rw [wp_ite]
        exact ⟨fun _ => hs, fun _ => h.fails (by decide)⟩

theorem wp_issueAgain (h : LineRule true C B C E) (left : Nat)
    (out : List Char) {s : State} (hs : C s) :
    wp (issueAgain mpu anyClass left out) (fun _ => C) E s := by
  induction left generalizing out s with
  | zero => exact hs
  | succ left ih =>
      unfold issueAgain
      rw [wp_ite]
      refine ⟨fun _ => hs, fun _ => ?_⟩
      rw [wp_bind, wp_modify, wp_bind]
      have hprio : Idle s (if s.isMeta = .yes then
          { s with prioOffset := s.prioOffset + 1 } else s) := by
        split
        · exact ⟨rfl, rfl, rfl, rfl, rfl, rfl, rfl, rfl, rfl⟩
        · exact Idle.refl s
      apply wp_mono (h.wp_issueActions_again out (h.before hs hprio)) _
        (fun _ _ he => he)
      exact fun out t ht => ih out ht

end LineRule

/-- Each output of the table is empty or begins a line. -/
theorem map_begins : ∀ entry ∈ map, entry.2.toList = [] ∨
    ∃ c ∈ (entry.2.toList.dropWhile (· == ' ')).head?,
      c = 'p' ∨ c = 'P' ∨ c = 'c' ∨ c = 'D' := by
  simp [map]

/-- All lines of an action, if there are any. -/
theorem wp_issue (cfg : Config) {A B B' C : State → Prop}
    {E : Error → State → Prop} (hfirst : LineRule false A B C E)
    (hagain : LineRule true C B' C E) {out : List Char}
    (hout : ∃ entry ∈ map, out = entry.2.toList) {s : State} (hs : A s) :
    wp (do
        let rest ← issueActions cfg.mpu cfg.anyClass out false
        issueAgain cfg.mpu cfg.anyClass rest.length rest)
      (fun _ t => (out = [] ∧ A t) ∨ (out ≠ [] ∧ C t)) E s := by
  obtain ⟨entry, hmem, hentry⟩ := hout
  have hbegins := map_begins entry hmem
  rw [← hentry] at hbegins
  rcases hbegins with rfl | ⟨c, hhead, hc⟩
  · exact .inl ⟨rfl, hs⟩
  · have hne : out ≠ [] := by
      rintro rfl
      cases hhead
    obtain ⟨rest, hrest⟩ : ∃ rest, out.dropWhile (· == ' ') = c :: rest := by
      cases h : out.dropWhile (· == ' ') with
      | nil =>
          rw [h] at hhead
          cases hhead
      | cons c' rest =>
          rw [h] at hhead
          cases hhead
          exact ⟨rest, rfl⟩
    rw [wp_bind]
    apply wp_mono (hfirst.wp_issueActions hrest hc hs) _ (fun _ _ he => he)
    intro left t ht
    apply wp_mono (hagain.wp_issueAgain _ _ ht) _ (fun _ _ he => he)
    exact fun _ u hu => .inr ⟨hne, hu⟩

/-- An action: its lines, and what follows them. -/
theorem wp_dumpAction (cfg : Config) (d : Data) (atEnd : Bool)
    {A B B' C : State → Prop} {E : Error → State → Prop}
    {Q : Bool → State → Prop} (hfirst : LineRule false A B C E)
    (hagain : LineRule true C B' C E) {s : State} (hs : A s)
    (hnone : Q false s)
    (hfinish : ∀ out t, (out = [] ∧ A t) ∨ (out ≠ [] ∧ C t) →
      wp (do
        let s ← get
        step (.action s.isMeta out)
        if s.isMeta = .no then popRule else pure ()
        pure true) Q E t) :
    wp (dumpAction cfg d atEnd) Q E s := by
  unfold dumpAction
  rw [wp_ite]
  refine ⟨fun _ => ?_, fun _ => hnone⟩
  rw [wp_bind, wp_get]
  apply wp_idle (idle_lift (clean_getAction _ _ _)) hfirst.before hfirst.fails
    hs
  intro (act, actions) s hs
  dsimp only
  rw [wp_bind, wp_modify, wp_bind, wp_lift]
  refine ⟨fun mapped hmapped => ?_, fun e he => hfirst.fails fun heq => ?_⟩
  · rcases mapped with _ | ⟨out, mapMem⟩
    · exact hfirst.fails nofun
    · rw [wp_bind, wp_modify]
      have hissue := wp_issue cfg hfirst hagain (mapActions_mem hmapped)
        (hfirst.before hs
          (t := { s with actions, mapMem })
          ⟨rfl, rfl, rfl, rfl, rfl, rfl, rfl, rfl, rfl⟩)
      rw [wp_bind] at hissue ⊢
      apply wp_mono hissue _ (fun _ _ he => he)
      intro rest t ht
      rw [wp_bind]
      apply wp_mono ht _ (fun _ _ he => he)
      exact fun _ u hu => hfinish out u hu
  · exact clean_mapActions _ _ _ _ _ _ (heq ▸ he)

end Tcng.IfU32
