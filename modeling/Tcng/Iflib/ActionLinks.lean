import Tcng.Iflib.ActionLines
import Tcng.Iflib.ActionSharing
import Tcng.Lib.Postorder

/-! The links between stored actions, and the walks along them. -/

namespace Tcng

open History Postorder

namespace ActionDb

/-- Pointers lead to actions that were stored before. -/
structure Linked (db : ActionDb) : Prop where
  node : ∀ {id : Nat} {node : ActionNode}, db.nodes[id]? = some node →
    ∀ c ∈ node.successors, ∃ i < id, c = some i
  root : ∀ id ∈ db.root, id < db.nodes.length

def successors (db : ActionDb) (id : Nat) : List Nat :=
  match db.nodes[id]? with
  | some node => node.successors.filterMap fun c => c
  | none => []

/-- The actions in the order in which they are left, again and again. -/
def order (db : ActionDb) : List Nat :=
  db.root.flatMap fun id => postorder db.successors (id + 1) id

/-- One step of a walk. -/
def visitStored {σ : Type} (db : ActionDb)
    (visit : Nat → ActionNode → σ → Option σ) (s : σ) (id : Nat) : Option σ :=
  db.nodes[id]?.bind fun node => visit id node s

namespace Linked

variable {db : ActionDb} {σ : Type}

theorem descend (h : db.Linked) : ∀ id, ∀ c ∈ db.successors id, c < id := by
  intro id c hc
  rw [successors] at hc
  split at hc
  · next node hnode =>
      rw [List.mem_filterMap] at hc
      obtain ⟨c', hc', rfl⟩ := hc
      obtain ⟨i, hi, heq⟩ := h.node hnode _ hc'
      cases heq
      exact hi
  · cases hc

theorem ordered (h : db.Linked) : Ordered db.successors db.order :=
  Ordered.flatMap fun id _ => postorder_ordered h.descend (Nat.lt_succ_self id)

/-- A recursive walk visits the actions in their order. -/
theorem visitActions (h : db.Linked)
    (visit : Nat → ActionNode → σ → Option σ) {fuel id : Nat}
    (hfuel : id < fuel) (hid : id < db.nodes.length) (s : σ) :
    db.visitActions visit fuel id s =
      (postorder db.successors fuel id).foldlM (db.visitStored visit) s := by
  induction fuel generalizing id s with
  | zero => cases hfuel
  | succ fuel ih =>
      have hnode := List.getElem?_eq_getElem hid
      generalize db.nodes[id] = node at hnode
      -- the walk through the successors is the walk through their orders
      have hwalk : ∀ (cs : List (Option Nat)) (s : σ),
          (∀ c ∈ cs, ∃ i < id, c = some i) →
          cs.foldlM (fun s c => c.bind fun c =>
            db.visitActions visit fuel c s) s =
          ((cs.filterMap fun c => c).flatMap
            (postorder db.successors fuel)).foldlM (db.visitStored visit) s := by
        intro cs s hcs
        induction cs generalizing s with
        | nil => rfl
        | cons c cs ihcs =>
            obtain ⟨i, hi, rfl⟩ := hcs c List.mem_cons_self
            rw [List.filterMap_cons, List.flatMap_cons, List.foldlM_cons,
              List.foldlM_append, Option.bind_some,
              ih (by omega) (by omega)]
            congr 1
            funext s
            exact ihcs s fun c hc => hcs c (List.mem_cons_of_mem _ hc)
      rw [ActionDb.visitActions, postorder, successors, hnode,
        List.foldlM_append, ← hwalk node.successors s (h.node hnode)]
      change Option.bind _ (fun s => visit id node s) =
        Option.bind _ fun s => (db.visitStored visit s id).bind some
      congr 1
      funext s
      rw [visitStored, hnode, Option.bind_some, Option.bind_fun_some]

end Linked

end ActionDb

/-! ## Stored trees -/

def ActionType.bucket? : ActionType → Option Bucket
  | .atConform p => some p
  | .atCount p => some p
  | _ => none

def Action.buckets : Action → List Bucket
  | conform p c0 c1 => p :: (c0.buckets ++ c1.buckets)
  | count p c1 => p :: c1.buckets
  | _ => []

namespace ActionDb

/-- All links stay within the tables, and all buckets are in `buckets`. -/
structure Closed (buckets : List Bucket) (db : ActionDb) : Prop
    extends Linked db where
  hash : ∀ key, ∀ id ∈ db.hash key, id < db.nodes.length
  referers : ∀ id, ∀ referer ∈ db.referers id, referer < db.nodes.length
  bucket : ∀ {id : Nat} {node : ActionNode}, db.nodes[id]? = some node →
    ∀ p ∈ node.type.bucket?, p ∈ buckets

theorem root_addReferers (db : ActionDb) (ids : List Nat) (referer : Nat) :
    (db.addReferers ids referer).root = db.root := by
  induction ids generalizing db with
  | nil => rfl
  | cons i ids ih => exact ih (db.addReferer i referer)

namespace Closed

variable {buckets : List Bucket} {db : ActionDb}

/-- A new action whose successors are stored. -/
theorem store (h : Closed buckets db) {type : ActionType} {c0 c1 : Option Nat}
    (hsucc : ∀ c ∈ (⟨type, c0, c1, []⟩ : ActionNode).successors,
      ∃ i < db.nodes.length, c = some i)
    (hbucket : ∀ p ∈ type.bucket?, p ∈ buckets) (ids : List Nat)
    (hash : Nat → List Nat)
    (hhash : ∀ key, ∀ id ∈ hash key, id ≤ db.nodes.length) :
    Closed buckets (ActionDb.addReferers
      { db.alloc type c0 c1 with hash } ids db.nodes.length) := by
  generalize hdb : { db.alloc type c0 c1 with hash } = db'
  have hlength : db'.nodes.length = db.nodes.length + 1 := by
    simp [← hdb, alloc]
  have hnode : ∀ {id : Nat} {node : ActionNode},
      (db'.addReferers ids db.nodes.length).nodes[id]? = some node →
      ∃ old : ActionNode, node.type = old.type ∧
        node.successors = old.successors ∧
        (∀ r ∈ node.referers, r ∈ old.referers ∨ r = db.nodes.length) ∧
        (db.nodes[id]? = some old ∨
          id = db.nodes.length ∧ old = ⟨type, c0, c1, []⟩) := by
    intro id node hid
    rw [nodes_addReferers, Option.map_eq_some_iff] at hid
    obtain ⟨old, hold, rfl⟩ := hid
    refine ⟨old, rfl, rfl, ?_, ?_⟩
    · intro r hr
      rcases List.mem_append.mp hr with hr | hr
      · exact .inl hr
      · exact .inr (List.mem_replicate.mp hr).2
    · rw [← hdb] at hold
      simp only [alloc] at hold
      rcases Nat.lt_trichotomy id db.nodes.length with hlt | rfl | hgt
      · rw [List.getElem?_append_left hlt] at hold
        exact .inl hold
      · rw [List.getElem?_concat_length] at hold
        exact .inr ⟨rfl, (Option.some.inj hold).symm⟩
      · rw [List.getElem?_eq_none (by simpa using Nat.succ_le_of_lt hgt)] at hold
        cases hold
  constructor
  · constructor
    · intro id node hid c hc
      obtain ⟨old, _, hsame, _, hold⟩ := hnode hid
      rw [hsame] at hc
      rcases hold with hold | ⟨rfl, rfl⟩
      · exact h.node hold c hc
      · exact hsucc c hc
    · intro id hid
      rw [root_addReferers, ← hdb] at hid
      rw [length_addReferers, hlength]
      exact Nat.lt_succ_of_lt (h.root id hid)
  · intro key id hid
    rw [hash_addReferers, ← hdb] at hid
    rw [length_addReferers, hlength]
    exact Nat.lt_succ_of_le (hhash key id hid)
  · intro id referer hreferer
    rw [length_addReferers, hlength]
    simp only [ActionDb.referers] at hreferer
    split at hreferer
    · next node hid =>
        obtain ⟨old, _, _, href, hold⟩ := hnode hid
        rcases href referer hreferer with hr | rfl
        · rcases hold with hold | ⟨rfl, rfl⟩
          · have hmem : referer ∈ db.referers id := by
              rw [ActionDb.referers, hold]
              exact hr
            exact Nat.lt_succ_of_lt (h.referers id referer hmem)
          · cases hr
        · exact Nat.lt_succ_self _
    · cases hreferer
  · intro id node hid p hp
    obtain ⟨old, htype, _, _, hold⟩ := hnode hid
    rw [htype] at hp
    rcases hold with hold | ⟨rfl, rfl⟩
    · exact h.bucket hold p hp
    · exact hbucket p hp

/-- What `unique_action` returns is stored, and nothing is forgotten. -/
structure Found (buckets : List Bucket) (db : ActionDb) (result : Nat × ActionDb) :
    Prop where
  closed : Closed buckets result.2
  lt : result.1 < result.2.nodes.length
  le : db.nodes.length ≤ result.2.nodes.length

theorem Found.trans {r r' : Nat × ActionDb} (h : Found buckets db r)
    (h' : Found buckets r.2 r') : Found buckets db r' :=
  ⟨h'.closed, h'.lt, Nat.le_trans h.le h'.le⟩

theorem found (h : Closed buckets db) {id : Nat} (hid : id < db.nodes.length) :
    Found buckets db (id, db) := ⟨h, hid, Nat.le_refl _⟩

theorem stored (h : Closed buckets db) {type : ActionType}
    {c0 c1 : Option Nat}
    (hsucc : ∀ c ∈ (⟨type, c0, c1, []⟩ : ActionNode).successors,
      ∃ i < db.nodes.length, c = some i)
    (hbucket : ∀ p ∈ type.bucket?, p ∈ buckets) (ids : List Nat)
    (hash : Nat → List Nat)
    (hhash : ∀ key, ∀ id ∈ hash key, id ≤ db.nodes.length) :
    Found buckets db (db.nodes.length, ActionDb.addReferers
      { db.alloc type c0 c1 with hash } ids db.nodes.length) := by
  have hlength : (ActionDb.addReferers { db.alloc type c0 c1 with hash } ids
      db.nodes.length).nodes.length = db.nodes.length + 1 := by
    rw [length_addReferers]
    simp [alloc]
  refine ⟨h.store hsucc hbucket ids hash hhash, ?_, ?_⟩
  · exact hlength ▸ Nat.lt_succ_self _
  · exact hlength ▸ Nat.le_succ _

theorem mem_referers (h : Closed buckets db) {id referer : Nat}
    {p : Nat → Bool} (hfind : (db.referers id).find? p = some referer) :
    referer < db.nodes.length :=
  h.referers id referer (List.mem_of_find?_eq_some hfind)

section

variable {toDecision : Class → Nat}

theorem hashFind (h : Closed buckets db) {type : ActionType}
    (hleaf : (⟨type, none, none, []⟩ : ActionNode).successors = [])
    (hbucket : type.bucket? = none) :
    Found buckets db (db.hashFind toDecision type) := by
  simp only [ActionDb.hashFind]
  split
  · next id hfind =>
      exact h.found (h.hash _ id (List.mem_of_find?_eq_some hfind))
  · refine h.stored ?_ ?_ [] _ ?_
    · rw [hleaf]
      simp
    · rw [hbucket]
      simp
    · intro key id hid
      rw [Function.update_apply] at hid
      split at hid
      · rcases List.mem_cons.mp hid with rfl | hid
        · exact Nat.le_refl _
        · exact Nat.le_of_lt (h.hash _ id hid)
      · exact Nat.le_of_lt (h.hash _ id hid)

theorem hash_le (h : Closed buckets db) :
    ∀ key, ∀ id ∈ db.hash key, id ≤ db.nodes.length :=
  fun key id hid => Nat.le_of_lt (h.hash key id hid)

theorem uniqueAction {a : Action} (ha : a.buckets ⊆ buckets)
    (h : Closed buckets db) :
    Found buckets db (db.uniqueAction toDecision a) := by
  induction a generalizing db with
  | conform p c0 c1 ih0 ih1 =>
      rw [Action.buckets, List.cons_subset, List.append_subset] at ha
      have h0 := ih0 ha.2.1 h
      simp only [ActionDb.uniqueAction]
      generalize db.uniqueAction toDecision c0 = r0 at h0 ⊢
      have h1 := ih1 ha.2.2 h0.closed
      generalize r0.2.uniqueAction toDecision c1 = r1 at h1 ⊢
      have h01 := h0.trans h1
      split
      · next referer hfind =>
          exact h01.trans (h1.closed.found (h1.closed.mem_referers hfind))
      · refine h01.trans (h1.closed.stored ?_ ?_ [r0.1, r1.1] r1.2.hash
          h1.closed.hash_le)
        · have hlt := Nat.lt_of_lt_of_le h0.lt h1.le
          simp [ActionNode.successors, hlt, h1.lt]
        · simp [ActionType.bucket?, ha.1]
  | count p c1 ih1 =>
      rw [Action.buckets, List.cons_subset] at ha
      have h1 := ih1 ha.2 h
      simp only [ActionDb.uniqueAction]
      generalize db.uniqueAction toDecision c1 = r1 at h1 ⊢
      split
      · next referer hfind =>
          exact h1.trans (h1.closed.found (h1.closed.mem_referers hfind))
      · refine h1.trans (h1.closed.stored ?_ ?_ [r1.1] r1.2.hash
          h1.closed.hash_le)
        · simp [ActionNode.successors, h1.lt]
        · simp [ActionType.bucket?, ha.1]
  | _ => exact h.hashFind rfl rfl

theorem toUnique {a : Action} (ha : a.buckets ⊆ buckets)
    (h : Closed buckets db) : Closed buckets (db.toUnique toDecision a) := by
  have hfound : Found buckets db (db.uniqueAction toDecision a) :=
    h.uniqueAction ha
  simp only [ActionDb.toUnique]
  split
  · exact hfound.closed
  · have hclosed := hfound.closed
    refine ⟨⟨hclosed.node, ?_⟩, hclosed.hash, hclosed.referers, hclosed.bucket⟩
    intro id hid
    rcases List.mem_cons.mp hid with rfl | hid
    · exact hfound.lt
    · exact hclosed.root id hid

end

end Closed

end ActionDb

end Tcng
