import Tcng.IfU32.KeysSound
import Tcng.IfU32.Tables
import Tcng.Lib.RuleTables

/-! What a classifier makes of the lines of a pass, and the lines of single
rules. -/

namespace Tcng.IfU32

open Program

/-! ## Reading lines -/

instance (packet : Nat → Bool) (m : Match) : Decidable (m.Holds packet) :=
  inferInstanceAs (Decidable (_ = _))

/-- The table a rule is in. -/
def Line.table (line : Line) : Option Handle :=
  match line.selector with
  | .u32 none => some u32Root
  | .u32 (some handle) => some handle.htid
  | _ => none

def Profile.verdict (profile : Profile) (classid : Option Class) :
    Option Decision :=
  match profile with
  | .pdOk => classid.map .drClass
  | .pdDrop => some .drDrop
  | .pdContinue | .pdInvalid => none

/-- What a policer decides depends on whether the packet is in its profile. -/
def Line.verdict (inProfile : Police → Bool) (line : Line) : Option Decision :=
  match line.police with
  | none => line.classid.map .drClass
  | some police =>
      (if inProfile police then police.inProfile
        else police.outProfile).verdict line.classid

/-- Rules without offsets, all of one protocol and priority. -/
def reading (packet : Nat → Bool) (inProfile : Police → Bool) :
    RuleReading Line Handle Decision where
  table := Line.table
  holds line := ∀ m ∈ line.tests, m.Holds packet
  link := Line.link
  verdict := Line.verdict inProfile

/-! ## The line of a rule -/

/-- The selector of a rule with this handle. -/
theorem table_selector {line : Line} {h : Handle} (hselector : line.selector =
    .u32 (if h.htid = u32Root then none else some h)) :
    line.table = some h.htid := by
  rw [Line.table, hselector]
  by_cases hroot : h.htid = u32Root
  · rw [if_pos hroot, hroot]
  · rw [if_neg hroot]

/-- A line for the keys so far, which neither links nor decides yet. -/
structure RuleLine (h : Handle) (keys : List Key) (line : Line) : Prop where
  table : line.table = some h.htid
  tests : line.tests = printedTests keys
  link : line.link = none
  classid : line.classid = none
  police : line.police = none

/-- A rule of this protocol and priority, for the packet from its start. -/
structure Line.PlainAt (protocol : BitVec 16) (prioOffset : Nat)
    (line : Line) : Prop where
  protocol : line.protocol = protocol
  prioOffset : line.prioOffset = prioOffset
  plus : line.plus = none
  offsetAt : line.offsetAt = none

/-- What is printed next is for the same protocol and priority. -/
structure SamePlace (s t : State) : Prop where
  protocol : t.protocol = s.protocol
  prioOffset : t.prioOffset = s.prioOffset
  lastMeta : t.lastMeta ≠ .yes

theorem SamePlace.trans {s t u : State} (h : SamePlace s t)
    (h' : SamePlace t u) : SamePlace s u :=
  ⟨h'.protocol.trans h.protocol, h'.prioOffset.trans h.prioOffset, h'.lastMeta⟩

theorem SamePlace.plainAt {s t : State} (h : SamePlace s t) {line : Line}
    (hline : line.PlainAt t.protocolId t.prioOffset) :
    line.PlainAt s.protocolId s.prioOffset := by
  have hprotocol : t.protocolId = s.protocolId :=
    congrArg (Option.getD · ethPAll) h.protocol
  rw [← hprotocol, ← h.prioOffset]
  exact hline

theorem syncMeta_run {s : State} (hmeta : s.isMeta ≠ .yes)
    (hlast : s.lastMeta ≠ .yes) :
    syncMeta s = (.ok (), { s with isMeta := .no, lastMeta := .no }) := by
  have hno : (if s.isMeta = .undecided then IsMeta.no else s.isMeta) = .no := by
    cases h : s.isMeta with
    | yes => exact absurd h hmeta
    | _ => rfl
  have hsame : ¬(s.lastMeta ≠ .undecided ∧ s.lastMeta ≠ .no) := by
    cases h : s.lastMeta with
    | yes => exact absurd h hlast
    | undecided => exact fun hboth => hboth.1 rfl
    | no => exact fun hboth => hboth.2 rfl
  unfold syncMeta Program.modify
  dsimp only
  rw [hno, if_neg hsame]

theorem dumpMatch_run {s : State} (hmeta : s.isMeta ≠ .yes)
    (hlast : s.lastMeta ≠ .yes) :
    ∃ rule line, RuleLine s.currHandle s.keys line ∧
      line.PlainAt s.protocolId s.prioOffset ∧
      dumpMatch s = (.ok (), { s with
        isMeta := .no
        lastMeta := .no
        ruleStack := rule :: s.ruleStack
        line := some line }) := by
  refine ⟨_, _, ?_, ?_, (bind_of_ok (syncMeta_run hmeta hlast)).trans rfl⟩
  · exact ⟨table_selector rfl, rfl, rfl, rfl, rfl⟩
  · exact ⟨rfl, rfl, rfl, rfl⟩

/-! ## Decisions -/

/-- `hash_find` finds or stores a node for the leaf. -/
theorem hashFind_type (toDecision : Class → Nat) (type : ActionType)
    (db : ActionDb) {id : Nat} {db' : ActionDb}
    (h : ActionDb.hashFind toDecision type db = (id, db')) :
    ∃ node, db'.nodes[id]? = some node ∧ node.type = type := by
  unfold ActionDb.hashFind at h
  dsimp only at h
  split at h
  · next found hfound =>
      cases h
      have heq := List.find?_some hfound
      unfold ActionDb.actionEq at heq
      split at heq
      · next node hnode => exact ⟨node, hnode, beq_iff_eq.mp heq⟩
      · cases heq
  · cases h
    exact ⟨⟨type, none, none, []⟩, List.getElem?_concat_length, rfl⟩

theorem getAction_class (toDecision : Class → Nat) (c : Class) (db : ActionDb) :
    ∃ id db' node, db.getAction toDecision (.decision (.drClass c)) =
        .ok (id, db') ∧
      db'.nodes[id]? = some node ∧ node.type = .atClass c := by
  have hleaf : addActions (.decision (.drClass c)) .none .none =
      .ok (.class c) := by simp only [addActions, makeLeaf]
  cases hfind : ActionDb.hashFind toDecision (.atClass c) db with
  | mk id db' =>
      obtain ⟨node, hnode, htype⟩ := hashFind_type _ _ _ hfind
      refine ⟨id, db', node, ?_, hnode, htype⟩
      rw [ActionDb.getAction, hleaf, ← hfind]
      rfl

theorem getAction_drop (toDecision : Class → Nat) (db : ActionDb) :
    ∃ id db' node, db.getAction toDecision (.decision .drDrop) = .ok (id, db') ∧
      db'.nodes[id]? = some node ∧ node.type = .atDrop := by
  have hleaf : addActions (.decision .drDrop) .none .none = .ok .drop := by
    simp only [addActions, makeLeaf]
  cases hfind : ActionDb.hashFind toDecision .atDrop db with
  | mk id db' =>
      obtain ⟨node, hnode, htype⟩ := hashFind_type _ _ _ hfind
      refine ⟨id, db', node, ?_, hnode, htype⟩
      rw [ActionDb.getAction, hleaf, ← hfind]
      rfl

theorem getAction_continue (toDecision : Class → Nat) (db : ActionDb) :
    ∃ id db' node, db.getAction toDecision (.decision .drContinue) =
        .ok (id, db') ∧
      db'.nodes[id]? = some node ∧ node.type = .atUnspec := by
  have hleaf : addActions (.decision .drContinue) .none .none =
      .ok .unspec := by simp only [addActions, makeLeaf]
  cases hfind : ActionDb.hashFind toDecision .atUnspec db with
  | mk id db' =>
      obtain ⟨node, hnode, htype⟩ := hashFind_type _ _ _ hfind
      refine ⟨id, db', node, ?_, hnode, htype⟩
      rw [ActionDb.getAction, hleaf, ← hfind]
      rfl

section

variable (peakrate : Bucket → Bool) (overflow : Bucket → Option Bucket)
  {db : ActionDb} {id : Nat} {node : ActionNode}
  (hnode : db.nodes[id]? = some node) (atEnd : Bool)

include hnode

theorem mapActions_class {c : Class} (htype : node.type = .atClass c) :
    ∃ mem : MapMem, mem 0 = some (.class c) ∧
      mapActions peakrate overflow db id atEnd map =
        .ok (some (['c', '0'], mem)) := by
  refine ⟨Function.update (fun _ => none) 0 (some (.class c)),
    Function.update_self .., ?_⟩
  have hwalk : walkTree peakrate overflow db 2 (some id) ['c', '0']
      (fun _ => none) = .ok (some ([],
        Function.update (fun _ => none) 0 (some (.class c)))) := by
    simp [walkTree, hnode, htype, storeValue, mapIndex]
    rfl
  rw [map, mapActions]
  change (walkTree peakrate overflow db 2 (some id) ['c', '0']
    (fun _ => none) >>= _) = _
  rw [hwalk]
  rfl

theorem mapActions_drop (htype : node.type = .atDrop) :
    ∃ mem : MapMem, mapActions peakrate overflow db id atEnd map =
      .ok (some (['D', 'd', 'd'], mem)) := by
  refine ⟨fun _ => none, ?_⟩
  have hclass : walkTree peakrate overflow db 2 (some id) ['c', '0']
      (fun _ => none) = .ok none := by
    simp [walkTree, hnode, htype]
  have hdrop : walkTree peakrate overflow db 1 (some id) ['d']
      (fun _ => none) = .ok (some ([], fun _ => none)) := by
    simp [walkTree, hnode, htype]
  rw [map, mapActions]
  change (walkTree peakrate overflow db 2 (some id) ['c', '0']
    (fun _ => none) >>= _) = _
  rw [hclass]
  change mapActions peakrate overflow db id atEnd _ = _
  rw [mapActions]
  change (walkTree peakrate overflow db 1 (some id) ['d']
    (fun _ => none) >>= _) = _
  rw [hdrop]
  rfl

theorem mapActions_unspec (htype : node.type = .atUnspec) :
    ∃ mem : MapMem, mapActions peakrate overflow db id atEnd map =
      .ok (some ([], mem)) := by
  refine ⟨fun _ => none, ?_⟩
  have hclass : walkTree peakrate overflow db 2 (some id) ['c', '0']
      (fun _ => none) = .ok none := by
    simp [walkTree, hnode, htype]
  have hdrop : walkTree peakrate overflow db 1 (some id) ['d']
      (fun _ => none) = .ok none := by
    simp [walkTree, hnode, htype]
  have hunspec : walkTree peakrate overflow db 1 (some id) ['u']
      (fun _ => none) = .ok (some ([], fun _ => none)) := by
    simp [walkTree, hnode, htype]
  rw [map, mapActions]
  change (walkTree peakrate overflow db 2 (some id) ['c', '0']
    (fun _ => none) >>= _) = _
  rw [hclass]
  change mapActions peakrate overflow db id atEnd _ = _
  rw [mapActions]
  change (walkTree peakrate overflow db 1 (some id) ['d']
    (fun _ => none) >>= _) = _
  rw [hdrop]
  change mapActions peakrate overflow db id atEnd _ = _
  rw [mapActions]
  change (walkTree peakrate overflow db 1 (some id) ['u']
    (fun _ => none) >>= _) = _
  rw [hunspec]
  rfl

end

/-- A rule for the keys so far that decides. -/
structure VerdictLine (dec : Decision) (h : Handle) (keys : List Key)
    (line : Line) : Prop where
  table : line.table = some h.htid
  tests : line.tests = printedTests keys
  link : line.link = none
  verdict : ∀ inProfile, line.verdict inProfile = some dec

/-- The rule has been printed but is still on the stack. -/
structure Issued (dec : Decision) (s t : State) : Prop where
  line : ∃ line, VerdictLine dec s.currHandle s.keys line ∧
    line.PlainAt s.protocolId s.prioOffset ∧ t.output = s.output ++ [line]
  ruleStack : ∃ rule, t.ruleStack = rule :: s.ruleStack
  handle : t.handle = s.handle
  place : SamePlace s t
  isMeta : t.isMeta = .no

/-- The rule has been printed. -/
structure Decided (dec : Decision) (s t : State) : Prop where
  line : ∃ line, VerdictLine dec s.currHandle s.keys line ∧
    line.PlainAt s.protocolId s.prioOffset ∧ t.output = s.output ++ [line]
  ruleStack : t.ruleStack = s.ruleStack
  handle : t.handle = s.handle
  place : SamePlace s t

private theorem wp_lift_ok {σ ε α : Type} {Q : α → σ → Prop}
    {E : ε → σ → Prop} {s : σ} {x : Except ε α} {a : α} (h : x = .ok a) :
    wp (lift x) Q E s ↔ Q a s := by
  rw [h]
  rfl

section

variable (mpu : Bucket → Option Nat) (anyClass : Class) {s : State}
  (hmeta : s.isMeta ≠ .yes) (hlast : s.lastMeta ≠ .yes)

include hmeta hlast

theorem issueActions_class {c : Class} (hmem : s.mapMem 0 = some (.class c)) :
    wp (issueActions mpu anyClass ['c', '0'] false)
      (fun rest t => rest = [] ∧ Issued (.drClass c) s t)
      (fun _ _ => False) s := by
  obtain ⟨rule, line, hline, hplain, hrun⟩ := dumpMatch_run hmeta hlast
  have hdrop : ['c', '0'].dropWhile (· == ' ') = ['c', '0'] := rfl
  have hindex : mapIndex ['0'] = .ok (0, []) := rfl
  unfold issueActions
  rw [hdrop]
  dsimp only
  rw [if_neg (by decide), if_neg (by decide), if_pos rfl, wp_bind]
  change wp dumpMatch _ _ s
  rw [wp, hrun]
  dsimp only
  rw [wp_bind, getValue, wp_bind, wp_lift_ok hindex]
  dsimp only
  rw [wp_bind, wp_get]
  dsimp only
  rw [hmem]
  refine ⟨rfl, ⟨{ line with classid := some c }, ?_, ?_, rfl⟩, ⟨rule, rfl⟩, rfl,
    ⟨rfl, rfl, IsMeta.noConfusion⟩, rfl⟩
  swap
  · exact ⟨hplain.protocol, hplain.prioOffset, hplain.plus, hplain.offsetAt⟩
  refine ⟨hline.table, hline.tests, hline.link, fun _ => ?_⟩
  rw [Line.verdict, hline.police]
  rfl

theorem issueActions_drop :
    wp (issueActions mpu anyClass ['D', 'd', 'd'] false)
      (fun rest t => rest = [] ∧ Issued .drDrop s t) (fun _ _ => False) s := by
  obtain ⟨rule, line, hline, hplain, hrun⟩ := dumpMatch_run hmeta hlast
  have hdrop : ['D', 'd', 'd'].dropWhile (· == ' ') = ['D', 'd', 'd'] := rfl
  unfold issueActions
  rw [hdrop]
  dsimp only
  rw [if_neg (by decide), if_neg (by decide), if_neg (by decide), if_pos rfl,
    wp_bind, issuePolicer, wp_bind]
  change wp dumpMatch _ _ s
  rw [wp, hrun]
  refine ⟨rfl, ⟨{ line with
    classid := some anyClass
    police := some dropPolicer }, ?_, ?_, rfl⟩, ⟨rule, rfl⟩, rfl,
    ⟨rfl, rfl, IsMeta.noConfusion⟩, rfl⟩
  swap
  · exact ⟨hplain.protocol, hplain.prioOffset, hplain.plus, hplain.offsetAt⟩
  refine ⟨hline.table, hline.tests, hline.link, fun inProfile => ?_⟩
  cases hin : inProfile dropPolicer <;> simp only [Line.verdict, hin] <;> rfl

end

section

variable (cfg : Config) (atEnd : Bool) {s : State}

private theorem wp_dumpAction_mapped {d : Data} {id : Nat} {db : ActionDb}
    {out : List Char} {mem : MapMem} {Q : Bool → State → Prop}
    {E : Error → State → Prop} (htree : actionTree d = true)
    (haction : s.actions.getAction cfg.toDecision d = .ok (id, db))
    (hmapped : mapActions cfg.peakrate cfg.overflow db id atEnd map =
      .ok (some (out, mem)))
    (hissue : wp (do
      let rest ← issueActions cfg.mpu cfg.anyClass out false
      issueAgain cfg.mpu cfg.anyClass rest.length rest
      let s ← get
      step (.action s.isMeta out)
      if s.isMeta = .no then popRule else pure ()
      pure true) Q E { s with actions := db, mapMem := mem }) :
    wp (dumpAction cfg d atEnd) Q E s := by
  unfold dumpAction
  rw [if_pos htree, wp_bind, wp_get, wp_bind, wp_lift_ok haction]
  dsimp only
  rw [wp_bind, wp_modify, wp_bind, wp_lift_ok hmapped]
  dsimp only
  rw [wp_bind, wp_modify]
  exact hissue

/-- An action that takes one line. -/
private theorem dumpAction_decided {d : Data} {dec : Decision} {id : Nat}
    {db : ActionDb} {out : List Char} {mem : MapMem}
    (htree : actionTree d = true)
    (haction : s.actions.getAction cfg.toDecision d = .ok (id, db))
    (hmapped : mapActions cfg.peakrate cfg.overflow db id atEnd map =
      .ok (some (out, mem)))
    (hissue : wp (issueActions cfg.mpu cfg.anyClass out false)
      (fun rest t => rest = [] ∧
        Issued dec { s with actions := db, mapMem := mem } t)
      (fun _ _ => False) { s with actions := db, mapMem := mem }) :
    wp (dumpAction cfg d atEnd) (fun done t => done = true ∧ Decided dec s t)
      (fun _ _ => False) s := by
  apply wp_dumpAction_mapped cfg atEnd htree haction hmapped
  rw [wp_bind]
  apply wp_mono hissue _ fun _ _ h => h
  intro rest t hissued
  obtain ⟨hrest, hissued⟩ := hissued
  obtain ⟨rule, hstack⟩ := hissued.ruleStack
  rw [hrest, wp_bind]
  change wp (do
    let s ← get
    step (.action s.isMeta out)
    if s.isMeta = .no then popRule else pure ()
    pure true) _ _ t
  rw [wp_bind, wp_get, wp_bind, if_pos hissued.isMeta]
  change wp (do popRule; pure true) _ _ _
  rw [wp_bind]
  let u : State := { t with steps := t.steps ++ [Step.action t.isMeta out] }
  apply (popRule_cons (s := u) hstack).mpr
  have hplace := hissued.place
  exact ⟨rfl, hissued.line, rfl, hissued.handle,
    ⟨hplace.protocol, hplace.prioOffset, hplace.lastMeta⟩⟩

theorem dumpAction_class (hmeta : s.isMeta ≠ .yes) (hlast : s.lastMeta ≠ .yes)
    (c : Class) :
    wp (dumpAction cfg (.decision (.drClass c)) atEnd)
      (fun done t => done = true ∧ Decided (.drClass c) s t)
      (fun _ _ => False) s := by
  obtain ⟨id, db, node, haction, hnode, htype⟩ :=
    getAction_class cfg.toDecision c s.actions
  obtain ⟨mem, hmem, hmapped⟩ :=
    mapActions_class cfg.peakrate cfg.overflow hnode atEnd htype
  exact dumpAction_decided cfg atEnd rfl haction hmapped
    (issueActions_class cfg.mpu cfg.anyClass
      (s := { s with actions := db, mapMem := mem }) hmeta hlast hmem)

theorem dumpAction_drop (hmeta : s.isMeta ≠ .yes) (hlast : s.lastMeta ≠ .yes) :
    wp (dumpAction cfg (.decision .drDrop) atEnd)
      (fun done t => done = true ∧ Decided .drDrop s t)
      (fun _ _ => False) s := by
  obtain ⟨id, db, node, haction, hnode, htype⟩ :=
    getAction_drop cfg.toDecision s.actions
  obtain ⟨mem, hmapped⟩ :=
    mapActions_drop cfg.peakrate cfg.overflow hnode atEnd htype
  exact dumpAction_decided cfg atEnd rfl haction hmapped
    (issueActions_drop cfg.mpu cfg.anyClass
      (s := { s with actions := db, mapMem := mem }) hmeta hlast)

/-- Nothing is printed where nothing has been tested. -/
theorem dumpAction_continue (hmeta : s.isMeta = .undecided)
    (hlast : s.lastMeta ≠ .yes) :
    wp (dumpAction cfg (.decision .drContinue) atEnd)
      (fun done t => done = true ∧ t.ruleStack = s.ruleStack ∧
        t.handle = s.handle ∧ t.output = s.output ∧ SamePlace s t)
      (fun _ _ => False) s := by
  obtain ⟨id, db, node, haction, hnode, htype⟩ :=
    getAction_continue cfg.toDecision s.actions
  obtain ⟨mem, hmapped⟩ :=
    mapActions_unspec cfg.peakrate cfg.overflow hnode atEnd htype
  apply wp_dumpAction_mapped cfg atEnd rfl haction hmapped
  change wp (do
    let s ← get
    step (.action s.isMeta [])
    if s.isMeta = .no then popRule else pure ()
    pure true) _ _ { s with actions := db, mapMem := mem }
  rw [wp_bind, wp_get, hmeta, wp_bind]
  exact ⟨rfl, rfl, rfl, rfl, rfl, rfl, hlast⟩

end

end Tcng.IfU32
