import Tcng.IfU32.Frame

/-! The rule stack between entry of `dump_or` and its return. A rule is pushed
when the first line for a mapped action is begun, and popped after each action
outside of meta fields, whether there was a line or not. -/

namespace Tcng.IfU32

open Program

/-- How many actions there have been without a line and outside of meta
fields. -/
def State.discards (s : State) : Nat := s.steps.countP (· = .action .no [])

/-! ## What leaves the stack alone -/

/-- Nothing changes that pushing and popping depend on. -/
structure Keeps (s t : State) : Prop where
  isMeta : t.isMeta = s.isMeta
  ruleStack : t.ruleStack = s.ruleStack
  discards : t.discards = s.discards

abbrev Quiet {α : Type} (x : Emit α) : Prop :=
  Relates x Keeps fun e _ _ => e ≠ ruleStackFails

theorem keeps_composes :
    Composes Keeps fun (e : Error) _ _ => e ≠ ruleStackFails where
  refl _ := ⟨rfl, rfl, rfl⟩
  trans h h' := ⟨h'.isMeta.trans h.isMeta, h'.ruleStack.trans h.ruleStack,
    h'.discards.trans h.discards⟩
  fails _ h := h

private theorem Idle.keeps {s t : State} (h : Idle s t) : Keeps s t where
  isMeta := h.isMeta
  ruleStack := h.ruleStack
  discards := by
    rw [State.discards, h.steps]
    rfl

private theorem Idles.quiet {α : Type} {x : Emit α} (h : Idles x) : Quiet x :=
  Relates.mono h (fun _ _ hi => hi.keeps) fun _ _ _ hne => hne

private theorem quiet_get : Quiet get := .get keeps_composes

private theorem quiet_pure {α : Type} (a : α) : Quiet (pure a) :=
  .pure keeps_composes a

private theorem quiet_bind {α β : Type} {x : Emit α} {f : α → Emit β}
    (hx : Quiet x) (hf : ∀ a, Quiet (f a)) : Quiet (x >>= f) :=
  .bind keeps_composes hx hf

private theorem quiet_throw {α : Type} {e : Error} (h : e ≠ ruleStackFails) :
    Quiet (throw e : Emit α) := fun _ => h

private theorem quiet_step {t : Step} (h : t ≠ .action .no []) :
    Quiet (step t) := by
  intro s
  refine ⟨rfl, rfl, ?_⟩
  simp [State.discards, h]

private theorem quiet_tcFilterAdd (protocol : BitVec 16) (selector : Selector) :
    Quiet (tcFilterAdd protocol selector) := fun _ => ⟨rfl, rfl, rfl⟩

private theorem quiet_tcMore (f : Line → Line) : Quiet (tcMore f) :=
  fun _ => ⟨rfl, rfl, rfl⟩

private theorem quiet_tcNl : Quiet tcNl := fun _ => ⟨rfl, rfl, rfl⟩

private theorem quiet_nextHash : Quiet nextHash := fun _ => ⟨rfl, rfl, rfl⟩

private theorem quiet_newHandle : Quiet newHandle := by
  intro s
  refine ⟨rfl, rfl, ?_⟩
  change (s.steps ++ [Step.newHandle s.handle]).countP _ = _
  simp [State.discards]

private theorem quiet_dumpMeta : Quiet dumpMeta := by
  apply quiet_bind quiet_get
  intro s
  apply Relates.ite
  · exact fun _ => quiet_tcFilterAdd _ _
  · intro _
    apply Relates.ite
    · exact fun _ => quiet_tcFilterAdd _ _
    · exact fun _ => quiet_throw (by decide)

private theorem quiet_dumpRule (rule : Rule) (myHandle : Handle) :
    Quiet (dumpRule rule myHandle) := by
  apply quiet_bind quiet_get
  intro s
  apply quiet_bind (quiet_tcFilterAdd _ _)
  intro _
  apply quiet_bind (quiet_tcMore _)
  intro _
  apply Relates.ite
  · exact fun _ => quiet_bind (quiet_tcMore _) fun _ => quiet_tcNl
  · exact fun _ => quiet_pure _

private theorem quiet_dumpStack (rules : List Rule) :
    Quiet (dumpStack rules) := by
  induction rules with
  | nil => exact quiet_pure _
  | cons rule prev ih =>
      apply quiet_bind ih
      intro _
      apply quiet_bind quiet_get
      intro s
      apply Relates.ite
      · intro _
        apply quiet_bind quiet_newHandle
        intro _
        apply quiet_bind (quiet_tcFilterAdd _ _)
        exact fun _ => quiet_bind quiet_tcNl fun _ => quiet_dumpRule _ _
      · exact fun _ => quiet_dumpRule _ _

/-! ## Issuing an action -/

/-- A rule has been pushed, except for meta fields. -/
structure Pushed (s t : State) : Prop where
  isMeta : t.isMeta = if s.isMeta = .yes then .yes else .no
  ruleStack : if s.isMeta = .yes then t.ruleStack = s.ruleStack
    else ∃ rule, t.ruleStack = rule :: s.ruleStack
  discards : t.discards = s.discards

theorem Keeps.trans {s t u : State} (h : Keeps s t) (h' : Keeps t u) :
    Keeps s u := keeps_composes.trans h h'

theorem Pushed.after {s t u : State} (h : Keeps s t) (hpushed : Pushed t u) :
    Pushed s u where
  isMeta := by
    rw [← h.isMeta]
    exact hpushed.isMeta
  ruleStack := by
    rw [← h.isMeta, ← h.ruleStack]
    exact hpushed.ruleStack
  discards := hpushed.discards.trans h.discards

theorem Pushed.keeps {s t u : State} (hpushed : Pushed s t) (h : Keeps t u) :
    Pushed s u where
  isMeta := h.isMeta.trans hpushed.isMeta
  ruleStack := by
    rw [h.ruleStack]
    exact hpushed.ruleStack
  discards := h.discards.trans hpushed.discards

/-- `sync_meta` settles what is undecided. -/
private theorem syncMeta_spec (s : State) :
    wp syncMeta (fun _ t =>
        t.isMeta = (if s.isMeta = .undecided then .no else s.isMeta) ∧
          t.ruleStack = s.ruleStack ∧ t.discards = s.discards)
      (fun _ _ => False) s := ⟨rfl, rfl, rfl⟩

private theorem pushed_dumpMatch (s : State) :
    wp dumpMatch (fun _ => Pushed s) (fun e _ => e ≠ ruleStackFails) s := by
  unfold dumpMatch
  rw [wp_bind]
  apply wp_mono (syncMeta_spec s) _ (fun _ _ h => h.elim)
  intro _ t ⟨hmeta, hstack, hdiscards⟩
  rw [wp_bind, wp_get, wp_ite]
  constructor
  · intro hyes
    apply wp_mono (quiet_dumpMeta t) _ (fun _ _ h => h)
    intro _ u hu
    have hs : s.isMeta = .yes := by
      rw [hyes] at hmeta
      split at hmeta
      · cases hmeta
      · exact hmeta.symm
    refine ⟨?_, ?_, hu.discards.trans hdiscards⟩
    · rw [hu.isMeta, hyes, if_pos hs]
    · rw [if_pos hs]
      exact hu.ruleStack.trans hstack
  · intro hno
    have hs : s.isMeta ≠ .yes := by
      intro hyes
      apply hno
      rw [hmeta, hyes]
      rfl
    have ht : t.isMeta = .no := by
      rw [hmeta]
      cases hs' : s.isMeta with
      | yes => exact absurd hs' hs
      | _ => rfl
    dsimp only
    rw [wp_bind, wp_modify]
    apply wp_mono (quiet_dumpRule _ _ _) _ (fun _ _ h => h)
    intro _ u hu
    refine ⟨?_, ?_, hu.discards.trans hdiscards⟩
    · rw [hu.isMeta, if_neg hs]
      exact ht
    · rw [if_neg hs, hu.ruleStack, ← hstack]
      exact ⟨_, rfl⟩

private theorem Pushed.dumpMatchAgain {s t : State} (h : Pushed s t) :
    wp dumpMatchAgain (fun _ => Pushed s) (fun e _ => e ≠ ruleStackFails)
      t := by
  unfold IfU32.dumpMatchAgain
  rw [wp_bind, wp_get, wp_ite, wp_ite]
  refine ⟨fun _ => ?_, fun hno => ⟨fun hempty => ?_, fun _ => ?_⟩⟩
  · exact wp_mono (quiet_dumpMeta t) (fun _ _ hk => h.keeps hk) fun _ _ h => h
  · have hmeta := h.isMeta
    have hstack := h.ruleStack
    split at hmeta
    · exact absurd hmeta hno
    · rename_i hs
      rw [if_neg hs, hempty] at hstack
      obtain ⟨rule, hrule⟩ := hstack
      cases hrule
  · exact wp_mono (quiet_dumpStack _ t) (fun _ _ hk => h.keeps hk)
      fun _ _ h => h

section

variable {E : Error → State → Prop} (s : State)
  (hfails : ∀ {e u}, e ≠ ruleStackFails → E e u)

include hfails

/-- The first line of an action pushes its rule. -/
private theorem lineRule_first :
    LineRule false (Keeps s) (Pushed s) (Pushed s) E where
  before h hi := h.trans hi.keeps
  begun {t} h := wp_mono (pushed_dumpMatch t)
    (fun _ _ hpushed => hpushed.after h) fun _ _ hne => hfails hne
  within h hi := h.keeps hi.keeps
  ended h := h.keeps ⟨rfl, rfl, rfl⟩
  fails := hfails

/-- Further lines leave it there. -/
private theorem lineRule_again :
    LineRule true (Pushed s) (Pushed s) (Pushed s) E where
  before h hi := h.keeps hi.keeps
  begun h := wp_mono h.dumpMatchAgain (fun _ _ hpushed => hpushed)
    fun _ _ hne => hfails hne
  within h hi := h.keeps hi.keeps
  ended h := h.keeps ⟨rfl, rfl, rfl⟩
  fails := hfails

end

/-! ## The law of the stack -/

/-- A rule is missing for each action without a line. -/
def Dropped (s t : State) : Prop :=
  ∃ popped, s.ruleStack = popped ++ t.ruleStack ∧
    t.discards = s.discards + popped.length

abbrev Stacked {α : Type} (x : Emit α) : Prop :=
  Relates x Dropped fun e s t => e = ruleStackFails → s.discards < t.discards

theorem dropped_composes :
    Composes Dropped fun (e : Error) s t =>
      e = ruleStackFails → s.discards < t.discards where
  refl s := ⟨[], rfl, rfl⟩
  trans := by
    rintro s t u ⟨popped, hst, hcount⟩ ⟨popped', htu, hcount'⟩
    refine ⟨popped ++ popped', ?_, ?_⟩
    · rw [hst, htu, List.append_assoc]
    · rw [hcount', hcount, List.length_append, Nat.add_assoc]
  fails := by
    rintro e s t u ⟨popped, -, hcount⟩ hfail he
    have := hfail he
    omega

private theorem Keeps.dropped {s t : State} (h : Keeps s t) : Dropped s t :=
  ⟨[], h.ruleStack.symm, h.discards⟩

private theorem Quiet.stacked {α : Type} {x : Emit α} (h : Quiet x) :
    Stacked x :=
  Relates.mono h (fun _ _ => Keeps.dropped) fun _ _ _ hne he => absurd he hne

private theorem stacked_bind {α β : Type} {x : Emit α} {f : α → Emit β}
    (hx : Stacked x) (hf : ∀ a, Stacked (f a)) : Stacked (x >>= f) :=
  .bind dropped_composes hx hf

/-- The rule of the action is popped; without a line, one is missing. -/
private theorem finish_spec {out : List Char} {s t : State}
    (h : (out = [] ∧ Keeps s t) ∨ (out ≠ [] ∧ Pushed s t)) :
    wp (do
        let s ← get
        step (.action s.isMeta out)
        if s.isMeta = .no then popRule else pure ()
        pure true)
      (fun _ u => Dropped s u)
      (fun e u => e = ruleStackFails → s.discards < u.discards) t := by
  let u : State := { t with steps := t.steps ++ [Step.action t.isMeta out] }
  have hdiscards : u.discards =
      t.discards + if t.isMeta = .no ∧ out = [] then 1 else 0 := by
    simp [u, State.discards, List.countP_append, List.countP_singleton]
  by_cases hno : t.isMeta = .no
  · have hpop : wp popRule (fun _ v => Dropped s v)
        (fun e v => e = ruleStackFails → s.discards < v.discards) u := by
      rcases h with ⟨hnil, hkeeps⟩ | ⟨hne, hpushed⟩
      · rw [if_pos ⟨hno, hnil⟩, hkeeps.discards] at hdiscards
        cases hstack : t.ruleStack with
        | nil =>
            rw [popRule_nil (s := u) hstack]
            intro _
            omega
        | cons rule prev =>
            rw [popRule_cons (s := u) hstack]
            refine ⟨[rule], ?_, hdiscards⟩
            rw [← hkeeps.ruleStack]
            exact hstack
      · have hmeta := hpushed.isMeta
        have hstack := hpushed.ruleStack
        rw [hno] at hmeta
        split at hmeta
        · cases hmeta
        · rename_i hs
          rw [if_neg hs] at hstack
          rw [if_neg (fun h => hne h.2), hpushed.discards] at hdiscards
          obtain ⟨rule, hrule⟩ := hstack
          rw [popRule_cons (s := u) hrule]
          exact ⟨[], rfl, hdiscards⟩
    rw [wp_bind, wp_get, wp_bind, if_pos hno]
    change wp (do popRule; pure true) (fun _ v => Dropped s v) _ u
    rw [wp_bind]
    exact hpop
  · rw [if_neg (fun h => hno h.1)] at hdiscards
    rw [wp_bind, wp_get, wp_bind, if_neg hno]
    change Dropped s u
    rcases h with ⟨-, hkeeps⟩ | ⟨-, hpushed⟩
    · exact ⟨[], hkeeps.ruleStack.symm, hdiscards.trans hkeeps.discards⟩
    · have hmeta := hpushed.isMeta
      have hstack := hpushed.ruleStack
      split at hmeta
      · rename_i hs
        rw [if_pos hs] at hstack
        exact ⟨[], hstack.symm, hdiscards.trans hpushed.discards⟩
      · exact absurd hmeta hno

private theorem stacked_dumpAction (cfg : Config) (d : Data) (atEnd : Bool) :
    Stacked (dumpAction cfg d atEnd) := by
  intro s
  have hfails {e : Error} {u : State} (hne : e ≠ ruleStackFails) :
      e = ruleStackFails → s.discards < u.discards :=
    fun he => absurd he hne
  apply wp_dumpAction cfg d atEnd (lineRule_first s hfails)
    (lineRule_again s hfails) (keeps_composes.refl s) (dropped_composes.refl s)
  exact fun out t ht => finish_spec ht

/-! ## Links -/

/-- A rule has been pushed and nothing else happened to the stack. -/
structure InRule (s t : State) : Prop where
  ruleStack : ∃ rule, t.ruleStack = rule :: s.ruleStack
  discards : t.discards = s.discards

private theorem InRule.keeps {s t u : State} (h : InRule s t) (hk : Keeps t u) :
    InRule s u := by
  obtain ⟨rule, hrule⟩ := h.ruleStack
  exact ⟨⟨rule, hk.ruleStack.trans hrule⟩, hk.discards.trans h.discards⟩

/-- The program works on the rule that was pushed last. -/
def WithinRule {α : Type} (x : Emit α) : Prop :=
  ∀ s t, InRule s t → wp x (fun _ u => InRule s u) (fun e _ => e ≠ ruleStackFails) t

private theorem Quiet.withinRule {α : Type} {x : Emit α} (h : Quiet x) :
    WithinRule x := fun _ t hst =>
  wp_mono (h t) (fun _ _ hk => hst.keeps hk) fun _ _ hne => hne

private theorem within_bind {α β : Type} {x : Emit α} {f : α → Emit β}
    (hx : WithinRule x) (hf : ∀ a, WithinRule (f a)) :
    WithinRule (x >>= f) := by
  intro s t hst
  rw [wp_bind]
  exact wp_mono (hx s t hst) (fun a u hu => hf a s u hu) fun _ _ h => h

private theorem within_changeRule (f : Rule → Rule) :
    WithinRule (changeRule f) := by
  intro s t hst
  obtain ⟨rule, hrule⟩ := hst.ruleStack
  refine ⟨⟨f rule, ?_⟩, hst.discards⟩
  change t.ruleStack.modifyHead f = _
  rw [hrule]
  rfl

private theorem within_dumpLinkRule : WithinRule dumpLinkRule := by
  apply within_bind (Quiet.withinRule quiet_get)
  intro s
  apply within_bind
    (Quiet.withinRule (quiet_step (t := .link s.handle s.cachedHandle) nofun))
  intro _
  apply within_bind (Quiet.withinRule quiet_newHandle)
  intro next
  apply within_bind (within_changeRule _)
  intro _
  apply within_bind (Quiet.withinRule (quiet_tcMore _))
  intro _
  apply within_bind (Quiet.withinRule quiet_tcNl)
  intro _
  apply within_bind (Quiet.withinRule quiet_nextHash)
  exact fun _ => Quiet.withinRule (quiet_pure _)

private theorem within_dumpOffsetRule (off : Data) :
    WithinRule (dumpOffsetRule off) := by
  unfold dumpOffsetRule
  intro s t hst
  rw [wp_ite, wp_ite, wp_ite]
  refine ⟨fun _ => ?_, fun _ => ⟨fun _ => nofun, fun _ => ⟨fun _ => nofun,
    fun _ => ?_⟩⟩⟩
  · apply within_bind (Quiet.withinRule (Idles.quiet (idle_lift (clean_variableOffset _))))
      _ s t hst
    intro (offset, mask, shift)
    apply within_bind (Quiet.withinRule (quiet_tcMore _))
    exact fun _ => within_changeRule _
  · apply within_bind (within_changeRule _) _ s t hst
    exact fun _ => Quiet.withinRule (quiet_tcMore _)

/-- The rule that links to a table is popped behind the rules of the table. -/
private theorem wp_link {s t : State} (hst : InRule s t) {α β : Type}
    {x : Emit α} (hx : Stacked x) (b : β) :
    wp (do let _ ← x; popRule; pure b) (fun _ u => Dropped s u)
      (fun e u => e = ruleStackFails → s.discards < u.discards) t := by
  obtain ⟨rule, hrule⟩ := hst.ruleStack
  rw [wp_bind]
  apply wp_mono (hx t)
  · intro _ u ⟨popped, hstack, hcount⟩
    rw [hrule] at hstack
    rw [hst.discards] at hcount
    rw [wp_bind]
    cases hu : u.ruleStack with
    | nil =>
        rw [popRule_nil hu]
        intro _
        have hlength := congrArg List.length hstack
        simp [hu] at hlength
        omega
    | cons top prev =>
        rw [popRule_cons hu]
        rw [hu] at hstack
        cases popped with
        | nil =>
            cases hstack
            exact ⟨[], rfl, hcount⟩
        | cons first popped =>
            obtain ⟨-, hrest⟩ := List.cons.inj hstack
            refine ⟨popped ++ [top], ?_, ?_⟩
            · rw [List.append_assoc]
              exact hrest
            · rw [List.length_append]
              exact hcount
  · intro e u hfail he
    rw [← hst.discards]
    exact hfail he

private theorem cachedHash_spec (s : State) :
    wp cachedHash (fun _ t => t.isMeta ≠ .yes ∧ t.ruleStack = s.ruleStack ∧
      t.discards = s.discards) (fun e _ => e ≠ ruleStackFails) s := by
  unfold cachedHash
  rw [wp_bind, wp_get, wp_ite, wp_ite]
  refine ⟨fun _ => nofun, fun hno => ⟨fun _ => ?_, fun _ => ⟨hno, rfl, rfl⟩⟩⟩
  rw [wp_bind]
  apply wp_mono (syncMeta_spec s) _ (fun _ _ h => h.elim)
  intro _ t ⟨hmeta, hstack, hdiscards⟩
  refine ⟨?_, hstack, hdiscards⟩
  change t.isMeta ≠ .yes
  rw [hmeta]
  split
  · exact nofun
  · exact hno

/-- What is done within a rule that has just been pushed. -/
private theorem wp_enter {α : Type} {s : State} {x : Emit α}
    {Q : α → State → Prop} {E : Error → State → Prop}
    (hx : ∀ t, InRule s t → wp x Q E t)
    (hE : ∀ e t, e ≠ ruleStackFails → E e t) :
    wp (do cachedHash; dumpMatch; x) Q E s := by
  rw [wp_bind]
  apply wp_mono (cachedHash_spec s) _ hE
  intro _ t ⟨hmeta, hstack, hdiscards⟩
  rw [wp_bind]
  apply wp_mono (pushed_dumpMatch t) _ hE
  intro _ u hpushed
  apply hx
  have hpush := hpushed.ruleStack
  rw [if_neg hmeta, hstack] at hpush
  exact ⟨hpush, hpushed.discards.trans hdiscards⟩

/-! ## The emitter -/

private theorem stacked_modify {f : State → State}
    (h : ∀ s, (f s).ruleStack = s.ruleStack ∧ (f s).steps = s.steps) :
    Stacked (modify f) := by
  intro s
  refine ⟨[], (h s).1.symm, ?_⟩
  rw [State.discards, (h s).2]
  rfl

private theorem stacked_setMeta (offset value : BitVec 32) :
    Stacked (setMeta offset value) := by
  apply stacked_bind (Quiet.stacked quiet_get)
  intro s
  refine Relates.ite (fun _ => Quiet.stacked (quiet_throw nofun)) fun _ => ?_
  refine Relates.ite (fun _ => ?_) fun _ => ?_
  · exact Relates.ite (fun _ => Quiet.stacked (quiet_throw nofun)) fun _ =>
      Quiet.stacked (quiet_pure _)
  · refine stacked_bind (stacked_modify fun _ => ⟨rfl, rfl⟩) fun _ => ?_
    refine Relates.ite (fun _ => Quiet.stacked (quiet_throw nofun)) fun _ => ?_
    exact stacked_bind (stacked_modify fun _ => ⟨rfl, rfl⟩) fun _ =>
      Quiet.stacked (quiet_pure _)

private theorem stacked_dumpMetaEq (d b : Data) :
    Stacked (dumpMetaEq d b) := by
  unfold dumpMetaEq
  split
  · exact Quiet.stacked (quiet_throw (by decide))
  · apply Relates.ite
    · intro _
      apply stacked_bind (Quiet.stacked quiet_get)
      intro s
      split
      · exact Quiet.stacked (quiet_pure _)
      · exact Quiet.stacked (quiet_pure _)
    · intro _
      exact Relates.ite (fun _ => stacked_setMeta _ _) fun _ =>
        Quiet.stacked (quiet_throw (by decide))

private theorem stacked_dumpPacketEq (a b : Data) :
    Stacked (dumpPacketEq a b) := by
  have hkeys (constant var : Data) (keys : List Key)
      {rest : Bool × List Key → Emit Bool}
      (hrest : ∀ found, Stacked (rest found)) :
      Stacked (lift (dumpEq constant var keys) >>= rest) :=
    stacked_bind
      (Quiet.stacked (Idles.quiet (idle_lift (clean_dumpEq _ _ _)))) hrest
  have hset (useful : Bool) (keys : List Key) :
      Stacked (do
        modify fun s => { s with keys }
        pure useful) :=
    stacked_bind (stacked_modify fun _ => ⟨rfl, rfl⟩) fun _ =>
      Quiet.stacked (quiet_pure _)
  apply stacked_bind (Quiet.stacked quiet_get)
  intro s
  have hthrow {α : Type} {e : Error} (he : e ≠ ruleStackFails) :
      Stacked (throw e : Emit α) := Quiet.stacked (quiet_throw he)
  refine Relates.ite (fun _ => hthrow (by decide)) fun _ => ?_
  refine stacked_bind (stacked_modify fun _ => ⟨rfl, rfl⟩) fun _ => ?_
  refine Relates.ite (fun _ => hkeys _ _ _ fun found => hset _ _) fun _ => ?_
  exact Relates.ite (fun _ => hkeys _ _ _ fun found => hset _ _) fun _ =>
    hthrow (by decide)

section

variable (cfg : Config)

mutual

private theorem stacked_dumpOther (d : Data) (currHandle : Handle)
    (atEnd : Bool) (fieldRoot : Nat) :
    Stacked (dumpOther cfg d currHandle atEnd fieldRoot) := by
  unfold dumpOther
  generalize hd : d = d'
  split
  · exact Quiet.stacked (quiet_throw nofun)
  · exact Quiet.stacked (quiet_pure _)
  · exact Quiet.stacked (quiet_throw nofun)
  · rename_i t a b c
    intro s
    apply wp_enter
    · intro t hst
      rw [wp_bind]
      apply wp_mono (within_dumpLinkRule s t hst)
      · intro next u hu
        apply wp_link hu
        exact stacked_dumpOr _ next atEnd fieldRoot false
      · exact fun e u hne he => absurd he hne
    · exact fun e u hne he => absurd he hne
  · exact stacked_dumpAnd _ _ _ _
  · rename_i t a b c
    intro s
    apply wp_enter
    · intro t hst
      rw [wp_bind]
      apply wp_mono (within_dumpOffsetRule _ s t hst)
      · intro _ u hu
        rw [wp_bind]
        apply wp_mono (within_dumpLinkRule s u hu)
        · intro next v hv
          apply wp_link hv
          exact stacked_dumpOr _ next atEnd fieldRoot false
        · exact fun e u hne he => absurd he hne
      · exact fun e u hne he => absurd he hne
    · exact fun e u hne he => absurd he hne
  · refine Relates.ite (fun _ => stacked_dumpMetaEq _ _) fun _ => ?_
    exact Relates.ite (fun _ => Quiet.stacked (quiet_throw nofun)) fun _ =>
      stacked_dumpPacketEq _ _
  · exact Quiet.stacked (quiet_throw nofun)
termination_by (d.size, if isLogicalOr d then 2 else 0)
decreasing_by
  all_goals subst hd
  all_goals first
    | exact .right _ (by simp [isLogicalOr])
    | exact .left _ _ (by simp only [Data.size]; omega)

private theorem stacked_dumpAndLoop (d : Data) (currHandle : Handle)
    (atEnd : Bool) (fieldRoot : Nat) :
    Stacked (dumpAndLoop cfg d currHandle atEnd fieldRoot) := by
  unfold dumpAndLoop
  generalize hd : d = d'
  split
  · rename_i t a b c
    refine Relates.ite (fun _ => Quiet.stacked (quiet_throw nofun)) fun _ => ?_
    apply stacked_bind (stacked_dumpAction _ _ _)
    intro this
    refine Relates.ite (fun _ => Quiet.stacked (quiet_pure _)) fun _ => ?_
    apply stacked_bind (stacked_dumpAction _ _ _)
    intro this
    refine Relates.ite (fun _ => Quiet.stacked (quiet_pure _)) fun _ => ?_
    apply stacked_bind (stacked_dumpOther _ _ _ _)
    intro this
    exact Relates.ite (fun _ => stacked_dumpAndLoop _ _ _ _) fun _ =>
      Quiet.stacked (quiet_pure _)
  · apply stacked_bind (stacked_dumpAction _ _ _)
    intro this
    exact Relates.ite (fun _ => Quiet.stacked (quiet_pure _)) fun _ =>
      stacked_dumpOther _ _ _ _
termination_by (d.size, if isLogicalOr d then 3 else 1)
decreasing_by
  · subst hd
    exact .left _ _ (by simp only [Data.size]; omega)
  · subst hd
    exact .left _ _ (by simp only [Data.size]; omega)
  · exact .right _ (by split <;> decide)

private theorem stacked_dumpAnd (d : Data) (currHandle : Handle) (atEnd : Bool)
    (fieldRoot : Nat) : Stacked (dumpAnd cfg d currHandle atEnd fieldRoot) := by
  unfold dumpAnd
  split
  · exact Quiet.stacked (quiet_throw nofun)
  · exact stacked_dumpAndLoop _ _ _ _
termination_by (d.size, if isLogicalOr d then 0 else 2)
decreasing_by
  rename_i h
  exact .right _ (by rw [if_neg h, if_neg h]; decide)

private theorem stacked_dumpOr (d : Data) (currHandle : Handle) (atEnd : Bool)
    (fieldRoot : Nat) (useful : Bool) :
    Stacked (dumpOr cfg d currHandle atEnd fieldRoot useful) := by
  unfold dumpOr
  refine stacked_bind (stacked_modify fun _ => ⟨rfl, rfl⟩) fun _ => ?_
  apply stacked_bind (stacked_dumpAction _ _ _)
  intro this
  refine Relates.ite (fun _ => Quiet.stacked (quiet_pure _)) fun _ => ?_
  generalize hd : d = d'
  split
  · rename_i t a b c
    apply stacked_bind (stacked_dumpAnd a _ _ _)
    exact fun _ => stacked_dumpOr b _ _ _ _
  · apply stacked_bind (stacked_dumpAnd _ _ _ _)
    exact fun _ => Quiet.stacked (quiet_pure _)
termination_by (d.size, if isLogicalOr d then 1 else 3)
decreasing_by
  · subst hd
    exact .left _ _ (by simp only [Data.size]; omega)
  · subst hd
    exact .left _ _ (by simp only [Data.size]; omega)
  · exact .right _ (by split <;> decide)

end

end

/-- The variables before the first pass. -/
def State.start : State where
  prioOffset := 0
  isMeta := .undecided
  lastMeta := .undecided
  protocol := none
  handle := 0
  cached := false
  cachedProtocol := 0
  cachedHandle := 0
  keys := []
  currHandle := 0
  metaOffset := 0
  metaValue := 0
  ruleStack := []
  actions := .empty
  mapMem := fun _ => none
  policers := []
  line := none
  output := []
  steps := []

def plainConfig : Config :=
  ⟨fun c => c, fun _ => false, fun _ => none, fun _ => none, 0⟩

end Tcng.IfU32
