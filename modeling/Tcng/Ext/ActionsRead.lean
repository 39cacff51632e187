import Tcng.Ext.TccextRuns
import Tcng.Iflib.ActionNumbers

/-! Action lines are read back as the actions they were written for. -/

namespace Tcng.Ext

open History Postorder ActionDb

/-! ## What is written -/

section

variable (numbers : ObjectNumbers) (db : ActionDb) (number : Nat → Option Nat)

/-- The text of a line, where all actions have a number. -/
def items (node : ActionNode) : ActionText :=
  match node.type with
  | .atConform p => .conform (numbers.police p)
      (.action (shownNumber (node.c1.bind number)))
      (.action (shownNumber (node.c0.bind number)))
  | .atCount p => .count (numbers.police p)
      (.action (shownNumber (node.c1.bind number)))
  | .atClass c => .class ⟨numbers.qdisc c, numbers.cls c⟩ []
  | .atDrop => .drop
  | .atUnspec => .unspec

def actionLine (id : Nat) : Line :=
  .action (shownNumber (number id))
    ((db.nodes[id]?.map (items numbers number)).getD .unspec)

variable {numbers db number}

end

/-! ## What an action that was read does -/

/-- The buckets counted and the leaf reached; `follow` is what happens at an
action that is only named. -/
def TccextAction.evaluate (conforms : BitVec 32 → Bool)
    (follow : Nat → Option (List (BitVec 32) × TccextAction)) :
    TccextAction → Option (List (BitVec 32) × TccextAction)
  | .found none => none
  | .found (some address) => follow address
  | .conform bucket yes no =>
      if conforms bucket then yes.evaluate conforms follow
      else no.evaluate conforms follow
  | .count bucket action =>
      (action.evaluate conforms follow).map fun result =>
        (bucket :: result.1, result.2)
  | leaf => some ([], leaf)

namespace TccextBlock

def walk (s : TccextBlock) (conforms : BitVec 32 → Bool) :
    Nat → Nat → Option (List (BitVec 32) × TccextAction)
  | 0, _ => none
  | fuel + 1, address =>
      (s.actions.find? fun a => decide (a.address = address)).bind fun a =>
        a.action.evaluate conforms (s.walk conforms fuel)

/-- What an action names was made before. -/
def evaluate (s : TccextBlock) (conforms : BitVec 32 → Bool) (address : Nat) :
    Option (List (BitVec 32) × TccextAction) :=
  s.walk conforms (address + 1) address

end TccextBlock

/-! ## What is read -/

section

variable (numbers : ObjectNumbers) (number : Nat → Option Nat)

/-- The leaf stands for the same decision; a class is the one that its reference
was resolved to. -/
def LeafRead (s : TccextBlock) : ActionType → TccextAction → Prop
  | .atClass c, action => ∃ address, action = .class [address] ∧
      (⟨numbers.qdisc c, numbers.cls c⟩, address) ∈ s.resolved
  | .atDrop, action => action = .drop
  | .atUnspec, action => action = .unspec
  | _, _ => False

/-- The action that the line of `id` was read as. -/
def Names (s : TccextBlock) (id address : Nat) : Prop :=
  findAction s.actions (shownNumber (number id)) = some address

/-- An action at `address` that stands for a stored one. -/
def NodeRead (s : TccextBlock) (address : Nat) (node : ActionNode)
    (action : TccextAction) : Prop :=
  match node.type with
  | .atConform p => ∃ i0 i1 a0 a1, node.c0 = some i0 ∧ node.c1 = some i1 ∧
      action = .conform (numbers.police p) (.found (some a1))
        (.found (some a0)) ∧
      (Names number s i0 a0 ∧ a0 < address) ∧ Names number s i1 a1 ∧ a1 < address
  | .atCount p => ∃ i1 a1, node.c1 = some i1 ∧
      action = .count (numbers.police p) (.found (some a1)) ∧
      Names number s i1 a1 ∧ a1 < address
  | leaf => LeafRead numbers s leaf action

/-- The lines of `ids` have been read. -/
structure ActionsRead (db : ActionDb) (ids : List Nat) (s : TccextBlock) :
    Prop where
  acyclic : s.cyclic = false
  fresh : ∀ a ∈ s.actions, a.address < s.allocated
  nodup : (s.actions.map (·.address)).Nodup
  known : ∀ a ∈ s.actions, ∃ id ∈ ids, a.index = shownNumber (number id)
  read : ∀ id ∈ ids, ∀ node, db.nodes[id]? = some node →
    ∃ a, s.actions.find? (·.index = shownNumber (number id)) = some a ∧
      NodeRead numbers number s a.address node a.action

/-- What reading the text of an action leaves alone. -/
structure SameActions (s s' : TccextBlock) : Prop where
  actions : s'.actions = s.actions
  cyclic : s'.cyclic = s.cyclic
  allocated : s.allocated ≤ s'.allocated
  resolved : s.resolved ⊆ s'.resolved

variable {numbers number}

theorem SameActions.refl (s : TccextBlock) : SameActions s s :=
  ⟨rfl, rfl, Nat.le_refl _, List.Subset.refl _⟩

theorem sameActions_resolveClass (ref : ClassRef) (s : TccextBlock) :
    SameActions s (resolveClass ref s).2 ∧
      (ref, (resolveClass ref s).1) ∈ (resolveClass ref s).2.resolved := by
  rw [resolveClass]
  cases findQdiscClass s.qdiscs ref.qdisc ref.cls with
  | some found => exact ⟨⟨rfl, rfl, Nat.le_refl _, by simp⟩, by simp⟩
  | none =>
      simp only [fudgeClass]
      cases findQdisc s.qdiscs ref.qdisc with
      | some q => exact ⟨⟨rfl, rfl, Nat.le_succ _, by simp⟩, by simp⟩
      | none =>
          exact ⟨⟨rfl, rfl, Nat.le_add_right _ 2, by simp [fudgeQdisc]⟩, by simp⟩

theorem NodeRead.extend {s s' : TccextBlock} (h : s.resolved ⊆ s'.resolved)
    (hnames : ∀ {id address}, Names number s id address →
      Names number s' id address) {address : Nat} {node : ActionNode}
    {action : TccextAction}
    (hread : NodeRead numbers number s address node action) :
    NodeRead numbers number s' address node action := by
  simp only [NodeRead] at hread ⊢
  cases htype : node.type with
  | atConform p =>
      simp only [htype] at hread ⊢
      obtain ⟨i0, i1, a0, a1, h0, h1, haction, hread0, hread1⟩ := hread
      exact ⟨i0, i1, a0, a1, h0, h1, haction, ⟨hnames hread0.1, hread0.2⟩,
        hnames hread1.1, hread1.2⟩
  | atCount p =>
      simp only [htype] at hread ⊢
      obtain ⟨i1, a1, h1, haction, hread1⟩ := hread
      exact ⟨i1, a1, h1, haction, hnames hread1.1, hread1.2⟩
  | atClass c =>
      simp only [htype] at hread ⊢
      obtain ⟨a, haction, hmem⟩ := hread
      exact ⟨a, haction, h hmem⟩
  | atDrop =>
      simp only [htype] at hread ⊢
      exact hread
  | atUnspec =>
      simp only [htype] at hread ⊢
      exact hread

variable {db : ActionDb} {buckets : List TccextBucket} {ids : List Nat}
  {s : TccextBlock}

theorem ActionsRead.names (h : ActionsRead numbers number db ids s) {id : Nat}
    (hid : id ∈ ids) (hlt : id < db.nodes.length) :
    ∃ address < s.allocated, Names number s id address := by
  obtain ⟨a, hfind, _⟩ := h.read id hid _ (List.getElem?_eq_getElem hlt)
  refine ⟨a.address, h.fresh a (List.mem_of_find?_eq_some hfind), ?_⟩
  rw [Names, findAction, hfind]
  rfl

theorem parseAction_items (h : ActionsRead numbers number db ids s)
    (hlinked : db.Linked) {id : Nat} {node : ActionNode}
    (hnode : db.nodes[id]? = some node) (hids : db.successors id ⊆ ids)
    (hbuckets : ∀ p ∈ node.type.bucket?,
      ∃ b ∈ buckets, b.index = numbers.police p) :
    ∃ action s', parseAction buckets (items numbers number node) s =
        .ok (action, s') ∧ SameActions s s' ∧
      (∀ found, action ≠ .found found) ∧
      NodeRead numbers number s' s'.allocated node action := by
  have hnames : ∀ c ∈ node.successors, ∃ i, c = some i ∧
      ∃ address < s.allocated, Names number s i address := by
    intro c hc
    obtain ⟨i, hi, rfl⟩ := hlinked.node hnode c hc
    have hmem : i ∈ db.successors id := by
      rw [successors, hnode]
      exact List.mem_filterMap.mpr ⟨some i, hc, rfl⟩
    have hlt := (List.getElem?_eq_some_iff.mp hnode).1
    exact ⟨i, rfl, h.names (hids hmem) (Nat.lt_trans hi hlt)⟩
  have hbucket : ∀ p ∈ node.type.bucket?, ∃ b,
      findBucket buckets (numbers.police p) = .ok b ∧
        b.index = numbers.police p := by
    intro p hp
    obtain ⟨b, hb, hindex⟩ := hbuckets p hp
    cases hfind : buckets.find? fun b => decide (b.index = numbers.police p) with
    | none =>
        have hnot := List.find?_eq_none.mp hfind b hb
        simp [hindex] at hnot
    | some b' =>
        refine ⟨b', by rw [findBucket, hfind], ?_⟩
        simpa using List.find?_some hfind
  cases htype : node.type with
  | atConform p =>
      obtain ⟨b, hb, hindex⟩ := hbucket p (by simp [htype, ActionType.bucket?])
      simp only [ActionNode.successors, htype, List.mem_cons, List.not_mem_nil,
        or_false, forall_eq_or_imp, forall_eq] at hnames
      obtain ⟨⟨i0, h0, a0, hlt0, hname0⟩, i1, h1, a1, hlt1, hname1⟩ := hnames
      refine ⟨.conform (numbers.police p) (.found (some a1)) (.found (some a0)), s,
        ?_, .refl s, by simp, ?_⟩
      · have hfind0 : findAction s.actions (shownNumber (number i0)) = some a0 :=
          hname0
        have hfind1 : findAction s.actions (shownNumber (number i1)) = some a1 :=
          hname1
        simp [items, htype, h0, h1, parseAction, hb, hindex, hfind0, hfind1, bind,
          Except.bind]
      · simp only [NodeRead, htype]
        exact ⟨i0, i1, a0, a1, h0, h1, rfl, ⟨hname0, hlt0⟩, hname1, hlt1⟩
  | atCount p =>
      obtain ⟨b, hb, hindex⟩ := hbucket p (by simp [htype, ActionType.bucket?])
      simp only [ActionNode.successors, htype, List.mem_cons, List.not_mem_nil,
        or_false, forall_eq] at hnames
      obtain ⟨i1, h1, a1, hlt1, hname1⟩ := hnames
      refine ⟨.count (numbers.police p) (.found (some a1)), s, ?_, .refl s,
        by simp, ?_⟩
      · have hfind1 : findAction s.actions (shownNumber (number i1)) = some a1 :=
          hname1
        simp [items, htype, h1, parseAction, hb, hindex, hfind1, bind, Except.bind]
      · simp only [NodeRead, htype]
        exact ⟨i1, a1, h1, rfl, hname1, hlt1⟩
  | atClass c =>
      obtain ⟨hsame, hresolved⟩ :=
        sameActions_resolveClass ⟨numbers.qdisc c, numbers.cls c⟩ s
      refine ⟨.class [(resolveClass ⟨numbers.qdisc c, numbers.cls c⟩ s).1], _, ?_,
        hsame, by simp, ?_⟩
      · simp only [items, htype, parseAction, parseClassList]
      · simp only [NodeRead, htype, LeafRead]
        exact ⟨_, rfl, hresolved⟩
  | atDrop =>
      refine ⟨.drop, s, ?_, .refl s, by simp, ?_⟩
      · simp only [items, htype, parseAction]
      · simp only [NodeRead, htype, LeafRead]
  | atUnspec =>
      refine ⟨.unspec, s, ?_, .refl s, by simp, ?_⟩
      · simp only [items, htype, parseAction]
      · simp only [NodeRead, htype, LeafRead]

/-- One more line. -/
theorem ActionsRead.parseLine (h : ActionsRead numbers number db ids s)
    (hlinked : db.Linked) {id : Nat} {node : ActionNode}
    (hnode : db.nodes[id]? = some node) (hids : db.successors id ⊆ ids)
    (hbuckets : ∀ p ∈ node.type.bucket?,
      ∃ b ∈ buckets, b.index = numbers.police p)
    (hnew : ∀ i ∈ ids, shownNumber (number i) ≠ shownNumber (number id)) :
    ∃ s', Ext.parseLine buckets (actionLine numbers db number id) s = .ok s' ∧
      ActionsRead numbers number db (ids ++ [id]) s' := by
  obtain ⟨action, s1, hparse, hsame, hnotFound, hread⟩ :=
    parseAction_items h hlinked hnode hids hbuckets
  have hunused : ∀ a ∈ s.actions, a.index ≠ shownNumber (number id) := by
    intro a ha heq
    obtain ⟨i, hi, hindex⟩ := h.known a ha
    exact hnew i hi (hindex.symm.trans heq)
  let new : ListedAction := ⟨s1.allocated, shownNumber (number id), action⟩
  have hactions : ∀ {i}, (∃ a ∈ s.actions, a.index = shownNumber (number i)) →
      (new :: s1.actions).find? (·.index = shownNumber (number i)) =
        s.actions.find? (·.index = shownNumber (number i)) := by
    intro i hi
    obtain ⟨a, ha, hindex⟩ := hi
    have hne := hunused a ha
    rw [hindex] at hne
    rw [List.find?_cons_of_neg, hsame.actions]
    simpa [new] using hne.symm
  obtain ⟨s', hs'⟩ : ∃ s', s' = { s1 with
      actions := new :: s1.actions
      allocated := s1.allocated + 1 } := ⟨_, rfl⟩
  have hresolved : s'.resolved = s1.resolved := by rw [hs']
  have hnames : ∀ {i address}, Names number s i address →
      Names number s' i address := by
    intro i address hname
    obtain ⟨a, hfind, _⟩ := Option.map_eq_some_iff.mp hname
    rw [hs', Names, findAction, hactions ⟨a, List.mem_of_find?_eq_some hfind,
      by simpa using List.find?_some hfind⟩]
    exact hname
  refine ⟨s', ?_, ?_⟩
  · have hany : s.actions.any (fun a => decide
        (a.index = shownNumber (number id))) = false := by
      simpa using hunused
    simp only [actionLine, hnode, Option.map_some, Option.getD_some,
      Ext.parseLine, parseActions, hany, Bool.false_eq_true, if_false,
      h.acyclic, hparse, bind, Except.bind]
    cases action with
    | found found => exact absurd rfl (hnotFound found)
    | _ => exact congrArg Except.ok hs'.symm
  · constructor
    · rw [hs']
      exact hsame.cyclic.trans h.acyclic
    · rw [hs']
      intro a ha
      rcases List.mem_cons.mp ha with rfl | ha
      · exact Nat.lt_succ_self _
      · rw [hsame.actions] at ha
        have hlt := h.fresh a ha
        have hle := hsame.allocated
        exact Nat.lt_succ_of_lt (Nat.lt_of_lt_of_le hlt hle)
    · rw [hs', List.map_cons, List.nodup_cons]
      constructor
      · intro hmem
        obtain ⟨a, ha, heq⟩ := List.mem_map.mp hmem
        rw [hsame.actions] at ha
        have hlt := h.fresh a ha
        have hle := hsame.allocated
        exact absurd heq (Nat.ne_of_lt (Nat.lt_of_lt_of_le hlt hle))
      · rw [hsame.actions]
        exact h.nodup
    · rw [hs']
      intro a ha
      rcases List.mem_cons.mp ha with rfl | ha
      · exact ⟨id, by simp, rfl⟩
      · rw [hsame.actions] at ha
        obtain ⟨i, hi, hindex⟩ := h.known a ha
        exact ⟨i, List.mem_append_left _ hi, hindex⟩
    · intro i hi node' hnode'
      rcases List.mem_append.mp hi with hi | hi
      · obtain ⟨a, hfind, hold⟩ := h.read i hi node' hnode'
        refine ⟨a, ?_, hold.extend (hresolved ▸ hsame.resolved) hnames⟩
        rw [hs', hactions ⟨a, List.mem_of_find?_eq_some hfind,
          by simpa using List.find?_some hfind⟩]
        exact hfind
      · rw [List.mem_singleton] at hi
        subst hi
        obtain rfl := Option.some.inj (hnode.symm.trans hnode')
        refine ⟨new, by simp [hs', new],
          hread.extend (hresolved ▸ List.Subset.refl _) ?_⟩
        intro j address hname
        apply hnames
        rw [Names, ← hsame.actions]
        exact hname

/-- All lines that follow those of `before`. -/
theorem ActionsRead.parseLines {before : List Nat}
    (h : ActionsRead numbers number db before s) (hlinked : db.Linked)
    (hnodup : (before ++ ids).Nodup)
    (hordered : Ordered db.successors (before ++ ids))
    (hlt : ∀ id ∈ ids, id < db.nodes.length)
    (hbuckets : ∀ {id : Nat} {node : ActionNode}, db.nodes[id]? = some node →
      ∀ p ∈ node.type.bucket?, ∃ b ∈ buckets, b.index = numbers.police p)
    (hdistinct : ∀ i ∈ before ++ ids, ∀ j ∈ before ++ ids,
      shownNumber (number i) = shownNumber (number j) → i = j) :
    ∃ s', Ext.parseLines buckets (ids.map (actionLine numbers db number)) s =
        .ok s' ∧ ActionsRead numbers number db (before ++ ids) s' := by
  induction ids generalizing before s with
  | nil =>
      rw [List.append_nil]
      exact ⟨s, rfl, h⟩
  | cons id ids ih =>
      have hnode := List.getElem?_eq_getElem (hlt id List.mem_cons_self)
      have hnew : ∀ i ∈ before,
          shownNumber (number i) ≠ shownNumber (number id) := by
        intro i hi heq
        have hsame := hdistinct i (List.mem_append_left _ hi) id (by simp) heq
        exact (List.nodup_append.mp hnodup).2.2 i hi id List.mem_cons_self hsame
      obtain ⟨s1, hparse, hread⟩ := h.parseLine hlinked hnode
        (hordered before id ids rfl) (hbuckets hnode) hnew
      have hsplit : before ++ id :: ids = before ++ [id] ++ ids := by simp
      rw [hsplit] at hnodup hordered hdistinct ⊢
      obtain ⟨s', hrest, hall⟩ := ih hread hnodup hordered
        (fun i hi => hlt i (List.mem_cons_of_mem id hi)) hdistinct
      refine ⟨s', ?_, hall⟩
      rw [List.map_cons, Ext.parseLines, hparse]
      exact hrest

/-! ## What was read does what was written -/

theorem find?_address {actions : List ListedAction}
    (hnodup : (actions.map (·.address)).Nodup) {a : ListedAction}
    (ha : a ∈ actions) :
    actions.find? (fun b => decide (b.address = a.address)) = some a := by
  induction actions with
  | nil => cases ha
  | cons b actions ih =>
      rw [List.map_cons, List.nodup_cons] at hnodup
      rcases List.mem_cons.mp ha with rfl | ha
      · simp
      · have hne : b.address ≠ a.address := fun heq =>
          hnodup.1 (heq ▸ List.mem_map_of_mem ha)
        rw [List.find?_cons_of_neg (by simpa using hne)]
        exact ih hnodup.2 ha

/-- The walks through the stored actions and through those of the block take the
same branches. -/
theorem ActionsRead.walk (h : ActionsRead numbers number db ids s)
    (hordered : Ordered db.successors ids) (hlinked : db.Linked)
    (conforms : BitVec 32 → Bool) {fuel fuel' id address : Nat} (hid : id ∈ ids)
    (hlt : id < db.nodes.length) (hname : Names number s id address)
    (hfuel : id < fuel) (hfuel' : address < fuel') :
    ∃ counted leaf read,
      db.walk (fun p => conforms (numbers.police p)) fuel id =
        some (counted, leaf) ∧
      s.walk conforms fuel' address =
        some (counted.map numbers.police, read) ∧
      LeafRead numbers s leaf read := by
  induction fuel generalizing id address fuel' with
  | zero => cases hfuel
  | succ fuel ih =>
      cases fuel' with
      | zero => cases hfuel'
      | succ fuel' =>
          have hnode := List.getElem?_eq_getElem hlt
          generalize db.nodes[id] = node at hnode
          obtain ⟨a, hfind, hread⟩ := h.read id hid node hnode
          have haddress : a.address = address := by
            rw [Names, findAction, hfind] at hname
            exact Option.some.inj hname
          subst haddress
          have hat := find?_address h.nodup (List.mem_of_find?_eq_some hfind)
          -- what is named was read before
          have hnext : ∀ i1 a1, some i1 ∈ node.successors →
              Names number s i1 a1 → a1 < a.address →
              ∃ counted leaf read,
                db.walk (fun p => conforms (numbers.police p)) fuel i1 =
                  some (counted, leaf) ∧
                s.walk conforms fuel' a1 =
                  some (counted.map numbers.police, read) ∧
                LeafRead numbers s leaf read := by
            intro i1 a1 hmem hname1 hlt1
            obtain ⟨i, hi, heq⟩ := hlinked.node hnode _ hmem
            cases heq
            have hsucc : i1 ∈ db.successors id := by
              rw [successors, hnode]
              exact List.mem_filterMap.mpr ⟨some i1, hmem, rfl⟩
            obtain ⟨before, after, hsplit⟩ := List.append_of_mem hid
            have hsub := hordered before id after hsplit hsucc
            refine ih ?_ (by omega) hname1 (by omega) (by omega)
            rw [hsplit]
            exact List.mem_append_left _ hsub
          rw [ActionDb.walk, hnode, TccextBlock.walk, hat, Option.bind_some]
          simp only [NodeRead] at hread
          cases htype : node.type with
          | atConform p =>
              simp only [htype] at hread ⊢
              obtain ⟨i0, i1, a0, a1, h0, h1, haction, hread0, hread1⟩ := hread
              rw [haction]
              simp only [TccextAction.evaluate, h0, h1]
              cases conforms (numbers.police p) with
              | false =>
                  exact hnext i0 a0 (by simp [ActionNode.successors, htype, h0])
                    hread0.1 hread0.2
              | true =>
                  exact hnext i1 a1 (by simp [ActionNode.successors, htype, h1])
                    hread1.1 hread1.2
          | atCount p =>
              simp only [htype] at hread ⊢
              obtain ⟨i1, a1, h1, haction, hname1, hlt1⟩ := hread
              obtain ⟨counted, leaf, read, hwalk, hwalk', hleaf⟩ :=
                hnext i1 a1 (by simp [ActionNode.successors, htype, h1]) hname1
                  hlt1
              refine ⟨p :: counted, leaf, read, ?_, ?_, hleaf⟩
              · rw [h1, Option.bind_some, hwalk]
                rfl
              · rw [haction, TccextAction.evaluate, TccextAction.evaluate, hwalk']
                rfl
          | atClass c =>
              simp only [htype] at hread ⊢
              obtain ⟨address, haction, hmem⟩ := hread
              refine ⟨[], .atClass c, .class [address], rfl, ?_, address, rfl, hmem⟩
              rw [haction]
              rfl
          | atDrop =>
              simp only [htype] at hread ⊢
              have haction : a.action = .drop := hread
              refine ⟨[], .atDrop, .drop, rfl, ?_, rfl⟩
              rw [haction]
              rfl
          | atUnspec =>
              simp only [htype] at hread ⊢
              have haction : a.action = .unspec := hread
              refine ⟨[], .atUnspec, .unspec, rfl, ?_, rfl⟩
              rw [haction]
              rfl

end

end Tcng.Ext
