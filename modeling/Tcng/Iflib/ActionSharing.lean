import Mathlib.Data.List.Induction
import Tcng.Iflib.ActionDb
import Tcng.Lib.Register

/-! Which trees the shared actions stand for. Sharing compares the referers of
both successors, but a referer does not say through which branch it refers. -/

namespace Tcng

namespace Action

def successors : Action → List Action
  | conform _ c0 c1 => [c0, c1]
  | count _ c1 => [c1]
  | _ => []

def isLeaf : Action → Bool
  | conform .. | count .. => false
  | _ => true

/-- Subtrees in the order in which `unique_action` finishes them. -/
def postorder : Action → List Action
  | conform p c0 c1 => c0.postorder ++ c1.postorder ++ [conform p c0 c1]
  | count p c1 => c1.postorder ++ [count p c1]
  | leaf => [leaf]

/-- `v` refers to both successors of `u`, in whatever order. -/
def Covers (v u : Action) : Prop :=
  (∃ p, v.type = .atConform p ∧ u.type = .atConform p) ∧
    u.successors ⊆ v.successors

instance (v u : Action) : Decidable (Covers v u) :=
  match v, u with
  | conform p x y, conform q a b =>
      decidable_of_iff (p = q ∧ [a, b] ⊆ [x, y]) (by
        simp only [Covers, type, successors, ActionType.atConform.injEq,
          exists_eq_left']
        exact and_congr_left fun _ => eq_comm)
  | count .., _ => .isFalse (by simp [Covers, type])
  | .class _, _ => .isFalse (by simp [Covers, type])
  | drop, _ => .isFalse (by simp [Covers, type])
  | unspec, _ => .isFalse (by simp [Covers, type])
  | conform .., count .. => .isFalse (by simp [Covers, type])
  | conform .., .class _ => .isFalse (by simp [Covers, type])
  | conform .., drop => .isFalse (by simp [Covers, type])
  | conform .., unspec => .isFalse (by simp [Covers, type])

end Action

/-- No action covers one that is entered later. -/
def Separated (r : Register Action) : Prop :=
  r.entries.Pairwise fun v u => ¬v.Covers u

theorem Separated.of_extends {s r : Register Action} (h : Separated s)
    (hext : s.Extends r) : Separated r :=
  List.Pairwise.sublist (List.IsPrefix.sublist hext) h

theorem Separated.not_covers {r : Register Action} (h : Separated r)
    {i j : Nat} {v u : Action} (hi : r.get? i = some v)
    (hj : r.get? j = some u) (hij : i < j) : ¬v.Covers u := by
  obtain ⟨hilt, rfl⟩ := List.getElem?_eq_some_iff.mp hi
  obtain ⟨hjlt, rfl⟩ := List.getElem?_eq_some_iff.mp hj
  exact List.pairwise_iff_getElem.mp h i j hilt hjlt hij

/-- A node whose pointers lead to the successors of `a`. -/
def StoredAs (r : Register Action) (id : Nat) (node : ActionNode) :
    Action → Prop
  | .conform p c0 c1 => node.type = .atConform p ∧
      (∃ i0 < id, node.c0 = some i0 ∧ r.get? i0 = some c0) ∧
      ∃ i1 < id, node.c1 = some i1 ∧ r.get? i1 = some c1
  | .count p c1 => node.type = .atCount p ∧
      ∃ i1 < id, node.c1 = some i1 ∧ r.get? i1 = some c1
  | leaf => node.type = leaf.type

theorem StoredAs.type {r : Register Action} {id : Nat}
    {node : ActionNode} {a : Action} (h : StoredAs r id node a) :
    node.type = a.type := by
  cases a <;> first | exact h.1 | exact h

theorem StoredAs.extend {s r : Register Action} (hext : s.Extends r)
    {id : Nat} {node : ActionNode} {a : Action}
    (h : StoredAs r id node a) : StoredAs s id node a := by
  cases a with
  | conform p c0 c1 =>
      obtain ⟨htype, ⟨i0, hlt0, hc0, h0⟩, i1, hlt1, hc1, h1⟩ := h
      exact ⟨htype, ⟨i0, hlt0, hc0, hext.get? h0⟩, i1, hlt1, hc1, hext.get? h1⟩
  | count p c1 =>
      obtain ⟨htype, i1, hlt1, hc1, h1⟩ := h
      exact ⟨htype, i1, hlt1, hc1, hext.get? h1⟩
  | _ => exact h

/-- Referers are no part of what a node stores. -/
theorem StoredAs.congr {r : Register Action} {id : Nat}
    {node : ActionNode} {a : Action} (h : StoredAs r id node a)
    (referers : List Nat) :
    StoredAs r id { node with referers := referers } a := by
  cases a <;> exact h

/-- The tables hold exactly the actions of `r`, each at its number. -/
structure Stores (toDecision : Class → Nat) (db : ActionDb)
    (r : Register Action) : Prop where
  length : db.nodes.length = r.size
  node : ∀ {id a}, r.get? id = some a →
    ∃ node, db.nodes[id]? = some node ∧ StoredAs r id node a
  referers : ∀ {id b}, r.get? id = some b → ∀ referer,
    referer ∈ db.referers id ↔
      ∃ a, r.get? referer = some a ∧ b ∈ a.successors
  sorted : ∀ id, (db.referers id).Pairwise (· ≤ ·)
  hash : ∀ key id, id ∈ db.hash key ↔
    ∃ a, r.get? id = some a ∧ a.isLeaf = true ∧
      ActionDb.hashKey toDecision a.type = key

section

variable {toDecision : Class → Nat} {db : ActionDb} {r : Register Action}

theorem stores_empty : Stores toDecision .empty .empty where
  length := rfl
  node h := by simp [Register.empty, Register.get?] at h
  referers h := by simp [Register.empty, Register.get?] at h
  sorted id := by simp [ActionDb.empty, ActionDb.referers]
  hash key id := by
    simp [ActionDb.empty, Register.empty, Register.get?]

theorem Stores.actionEq (h : Stores toDecision db r) {id : Nat}
    {a : Action} (ha : r.get? id = some a) (type : ActionType) :
    db.actionEq type id = true ↔ a.type = type := by
  obtain ⟨node, hnode, hstored⟩ := h.node ha
  simp [ActionDb.actionEq, hnode, hstored.type]

/-! Evaluation follows the stored tree. -/

theorem Stores.walk (h : Stores toDecision db r)
    (conforms : Bucket → Bool) {fuel : Nat} {id : Nat} {a : Action}
    (ha : r.get? id = some a) (hfuel : id < fuel) :
    db.walk conforms fuel id = some (a.evaluate conforms) := by
  induction fuel generalizing id a with
  | zero => omega
  | succ fuel ih =>
      obtain ⟨node, hnode, hstored⟩ := h.node ha
      rw [ActionDb.walk, hnode]
      cases a with
      | conform p c0 c1 =>
          obtain ⟨htype, ⟨i0, hlt0, hc0, h0⟩, i1, hlt1, hc1, h1⟩ := hstored
          simp only [htype, Action.evaluate]
          split
          · rw [hc1]
            exact ih h1 (by omega)
          · rw [hc0]
            exact ih h0 (by omega)
      | count p c1 =>
          obtain ⟨htype, i1, hlt1, hc1, h1⟩ := hstored
          simp only [htype, hc1, Option.bind_some, ih h1 (by omega),
            Option.map_some, Action.evaluate]
      | _ =>
          simp only [hstored.type]
          rfl

theorem Stores.evaluate (h : Stores toDecision db r)
    (conforms : Bucket → Bool) {id : Nat} {a : Action}
    (ha : r.get? id = some a) :
    db.evaluate conforms id = some (a.evaluate conforms) :=
  h.walk conforms ha (Nat.lt_succ_self id)

/-! Storing a new action. -/

def ActionDb.addReferers (db : ActionDb) (ids : List Nat) (referer : Nat) :
    ActionDb :=
  ids.foldl (fun db id => db.addReferer id referer) db

theorem ActionDb.nodes_addReferers (db : ActionDb) (ids : List Nat)
    (referer id : Nat) :
    (db.addReferers ids referer).nodes[id]? =
      db.nodes[id]?.map fun node => { node with
        referers := node.referers ++ List.replicate (ids.count id) referer } := by
  induction ids generalizing db with
  | nil => simp [addReferers]
  | cons i ids ih =>
      have hstep : db.addReferers (i :: ids) referer =
          (db.addReferer i referer).addReferers ids referer := rfl
      rw [hstep, ih]
      simp only [addReferer, List.getElem?_modify, Option.map_eq_map,
        Option.map_map]
      congr 1
      funext node
      by_cases hi : i = id
      · simp [hi, List.replicate_succ]
      · simp [hi]

theorem ActionDb.length_addReferers (db : ActionDb) (ids : List Nat)
    (referer : Nat) :
    (db.addReferers ids referer).nodes.length = db.nodes.length := by
  induction ids generalizing db with
  | nil => rfl
  | cons i ids ih =>
      exact (ih (db.addReferer i referer)).trans (List.length_modify ..)

theorem ActionDb.hash_addReferers (db : ActionDb) (ids : List Nat)
    (referer : Nat) : (db.addReferers ids referer).hash = db.hash := by
  induction ids generalizing db with
  | nil => rfl
  | cons i ids ih => exact ih (db.addReferer i referer)

theorem StoredAs.successors_lt {id : Nat} {node : ActionNode} {a b : Action}
    (h : StoredAs r id node a) (hb : b ∈ a.successors) :
    ∃ i < id, r.get? i = some b := by
  cases a with
  | conform p c0 c1 =>
      obtain ⟨_, ⟨i0, hlt0, _, h0⟩, i1, hlt1, _, h1⟩ := h
      simp only [Action.successors, List.mem_cons, List.not_mem_nil,
        or_false] at hb
      rcases hb with rfl | rfl
      · exact ⟨i0, hlt0, h0⟩
      · exact ⟨i1, hlt1, h1⟩
  | count p c1 =>
      obtain ⟨_, i1, hlt1, _, h1⟩ := h
      simp only [Action.successors, List.mem_cons, List.not_mem_nil,
        or_false] at hb
      exact ⟨i1, hlt1, hb ▸ h1⟩
  | _ => cases hb

theorem Stores.referer_lt (h : Stores toDecision db r) {id referer : Nat}
    (href : referer ∈ db.referers id) : referer < r.size := by
  cases hid : r.get? id with
  | some b =>
      obtain ⟨a, ha, _⟩ := (h.referers hid referer).mp href
      exact Register.get?_lt ha
  | none =>
      have hout : db.nodes[id]? = none := by
        rw [List.getElem?_eq_none_iff, h.length]
        exact List.getElem?_eq_none_iff.mp hid
      simp [ActionDb.referers, hout] at href

/-- A new action is stored behind all others and refers to successors that
are stored already. -/
theorem Stores.enter (h : Stores toDecision db r) {a : Action}
    (hnew : a ∉ r.entries) {c0 c1 : Option Nat}
    (hstored : StoredAs r r.size ⟨a.type, c0, c1, []⟩ a) (ids : List Nat)
    (hids : ids.map r.get? = a.successors.map some) (hash : Nat → List Nat)
    (hhash : ∀ key id, id ∈ hash key ↔ id ∈ db.hash key ∨
      id = r.size ∧ a.isLeaf = true ∧
        ActionDb.hashKey toDecision a.type = key) :
    Stores toDecision
      (ActionDb.addReferers { db.alloc a.type c0 c1 with hash } ids r.size)
      (r.enter a) := by
  have hext := Register.extends_enter r a
  have hnode (id : Nat) :
      ({ db.alloc a.type c0 c1 with hash } : ActionDb).nodes[id]? =
        if id = r.size then some ⟨a.type, c0, c1, []⟩ else db.nodes[id]? := by
    rw [← h.length]
    simp only [ActionDb.alloc, List.getElem?_append]
    split
    · rw [if_neg (by omega)]
    · by_cases heq : id = db.nodes.length
      · simp [heq]
      · rw [if_neg heq, List.getElem?_eq_none (by simp; omega),
          List.getElem?_eq_none (by omega)]
  have hmem (id : Nat) : id ∈ ids ↔ ∃ b, r.get? id = some b ∧
      b ∈ a.successors := by
    constructor
    · intro hid
      have hmap : r.get? id ∈ a.successors.map some :=
        hids ▸ List.mem_map_of_mem hid
      obtain ⟨b, hb, heq⟩ := List.mem_map.mp hmap
      exact ⟨b, heq.symm, hb⟩
    · rintro ⟨b, hid, hb⟩
      have hmap : some b ∈ ids.map r.get? := hids ▸ List.mem_map_of_mem hb
      obtain ⟨i, hi, heq⟩ := List.mem_map.mp hmap
      rwa [Register.get?_inj hid heq]
  have href (id : Nat) :
      (ActionDb.addReferers { db.alloc a.type c0 c1 with hash } ids
        r.size).referers id =
      db.referers id ++ List.replicate (ids.count id) r.size := by
    have hout : db.nodes[r.size]? = none :=
      List.getElem?_eq_none (Nat.le_of_eq h.length)
    rw [ActionDb.referers, ActionDb.nodes_addReferers, hnode]
    by_cases heq : id = r.size
    · simp [heq, ActionDb.referers, hout]
    · rw [if_neg heq, ActionDb.referers]
      cases hid : db.nodes[id]? with
      | some node => rfl
      | none =>
          have hcount : ids.count id = 0 := by
            rw [List.count_eq_zero, hmem]
            rintro ⟨b, hb, _⟩
            obtain ⟨node, hnode, _⟩ := h.node hb
            rw [hid] at hnode
            cases hnode
          simp [hcount]
  have hget {id : Nat} {b : Action} : (r.enter a).get? id = some b ↔
      r.get? id = some b ∨ id = r.size ∧ b = a := by
    rw [Register.get?_enter hnew]
    split
    · rename_i heq
      subst heq
      have hout : r.get? r.size = none := List.getElem?_eq_none (Nat.le_refl _)
      simp [hout, eq_comm]
    · simp [*]
  exact {
    length := by
      rw [ActionDb.length_addReferers, Register.size_enter hnew, ← h.length]
      simp [ActionDb.alloc]
    node := by
      intro id b hb
      rw [ActionDb.nodes_addReferers, hnode]
      rcases hget.mp hb with hb | ⟨rfl, rfl⟩
      · obtain ⟨node, hnode, hb'⟩ := h.node hb
        rw [if_neg (Nat.ne_of_lt (Register.get?_lt hb)), hnode]
        exact ⟨_, rfl, (hb'.extend hext).congr _⟩
      · rw [if_pos rfl]
        exact ⟨_, rfl, (hstored.extend hext).congr _⟩
    referers := by
      intro id b hb referer
      have hcount : ids.count id ≠ 0 ↔ id ∈ ids := by
        rw [← Nat.pos_iff_ne_zero, List.count_pos_iff]
      rw [href, List.mem_append, List.mem_replicate, hcount, hmem]
      rcases hget.mp hb with hold | ⟨rfl, rfl⟩
      · rw [h.referers hold]
        constructor
        · rintro (⟨a', ha', hsucc⟩ | ⟨⟨b', hb', hsucc⟩, rfl⟩)
          · exact ⟨a', hget.mpr (.inl ha'), hsucc⟩
          · cases hold.symm.trans hb'
            exact ⟨a, hget.mpr (.inr ⟨rfl, rfl⟩), hsucc⟩
        · rintro ⟨a', ha', hsucc⟩
          rcases hget.mp ha' with ha' | ⟨rfl, rfl⟩
          · exact .inl ⟨a', ha', hsucc⟩
          · exact .inr ⟨⟨b, hold, hsucc⟩, rfl⟩
      · -- nothing refers to the new action yet
        have hnone : r.get? r.size = none :=
          List.getElem?_eq_none (Nat.le_refl _)
        have hout : db.nodes[r.size]? = none :=
          List.getElem?_eq_none (Nat.le_of_eq h.length)
        constructor
        · simp [ActionDb.referers, hout, hnone]
        · rintro ⟨a', ha', hsucc⟩
          have hfound : ∃ i, r.get? i = some b := by
            rcases hget.mp ha' with ha' | ⟨rfl, rfl⟩
            · obtain ⟨node, _, hstored'⟩ := h.node ha'
              obtain ⟨i, _, hi⟩ := hstored'.successors_lt hsucc
              exact ⟨i, hi⟩
            · obtain ⟨i, _, hi⟩ := hstored.successors_lt hsucc
              exact ⟨i, hi⟩
          exact absurd (Register.mem_iff.mpr hfound) hnew
    sorted := by
      intro id
      rw [href, List.pairwise_append]
      refine ⟨h.sorted id, List.pairwise_replicate.mpr (.inr (Nat.le_refl _)),
        ?_⟩
      intro x hx y hy
      rw [(List.mem_replicate.mp hy).2]
      exact Nat.le_of_lt (h.referer_lt hx)
    hash := by
      intro key id
      rw [ActionDb.hash_addReferers, hhash, h.hash]
      constructor
      · rintro (⟨b, hb, hleaf, hkey⟩ | ⟨rfl, hleaf, hkey⟩)
        · exact ⟨b, hget.mpr (.inl hb), hleaf, hkey⟩
        · exact ⟨a, hget.mpr (.inr ⟨rfl, rfl⟩), hleaf, hkey⟩
      · rintro ⟨b, hb, hleaf, hkey⟩
        rcases hget.mp hb with hb | ⟨rfl, rfl⟩
        · exact .inl ⟨b, hb, hleaf, hkey⟩
        · exact .inr ⟨rfl, hleaf, hkey⟩ }

/-! `unique_action` finds a stored action or stores a new one. -/

private theorem find?_le {p : Nat → Bool} {l : List Nat}
    (hl : l.Pairwise (· ≤ ·)) {i j : Nat} (hi : l.find? p = some i)
    (hj : j ∈ l) (hpj : p j = true) : i ≤ j := by
  obtain ⟨_, before, after, rfl, hbefore⟩ :=
    List.find?_eq_some_iff_append.mp hi
  rw [List.mem_append, List.mem_cons] at hj
  rcases hj with hj | rfl | hj
  · exact absurd hpj (by simpa using hbefore j hj)
  · exact Nat.le_refl _
  · rw [List.pairwise_append, List.pairwise_cons] at hl
    exact hl.2.1.1 j hj

/-- The result stands for `a` in tables that store nothing else but `a`. -/
structure Shared (toDecision : Class → Nat) (r : Register Action) (a : Action)
    (result : Nat × ActionDb) : Prop where
  stores : Stores toDecision result.2 (r.enter a)
  found : (r.enter a).get? result.1 = some a

private theorem Shared.of_found (h : Stores toDecision db r) {a : Action}
    {id : Nat} (hid : r.get? id = some a) :
    Shared toDecision r a (id, db) := by
  have hmem : r.enter a = r :=
    Register.enter_of_mem (Register.mem_iff.mpr ⟨id, hid⟩)
  exact ⟨hmem.symm ▸ h, hmem.symm ▸ hid⟩

private theorem Shared.of_new (h : Stores toDecision db r) {a : Action}
    (hnew : a ∉ r.entries) {db' : ActionDb}
    (h' : Stores toDecision db' (r.enter a)) :
    Shared toDecision r a (db.nodes.length, db') := by
  refine ⟨h', ?_⟩
  rw [h.length, Register.get?_enter hnew, if_pos rfl]

private theorem eq_of_leaf {a b : Action} (ha : a.isLeaf = true)
    (hb : b.isLeaf = true) (htype : b.type = a.type) : b = a := by
  cases a <;> cases b <;> simp_all [Action.type, Action.isLeaf]

theorem hashFind_shared (h : Stores toDecision db r) {a : Action}
    (hleaf : a.isLeaf = true) :
    Shared toDecision r a (ActionDb.hashFind toDecision a.type db) := by
  simp only [ActionDb.hashFind]
  split
  · rename_i id hfind
    obtain ⟨b, hb, hbleaf, _⟩ :=
      (h.hash _ id).mp (List.mem_of_find?_eq_some hfind)
    have htype := (h.actionEq hb _).mp (List.find?_some hfind)
    exact .of_found h (eq_of_leaf hleaf hbleaf htype ▸ hb)
  · rename_i hfind
    have hnew : a ∉ r.entries := by
      rw [Register.mem_iff]
      rintro ⟨id, hid⟩
      have hmem := (h.hash _ id).mpr ⟨a, hid, hleaf, rfl⟩
      have heq := (h.actionEq hid a.type).mpr rfl
      exact absurd heq (List.find?_eq_none.mp hfind id hmem)
    have hstored : StoredAs r r.size ⟨a.type, none, none, []⟩ a := by
      cases a <;> first | contradiction | rfl
    have hids : ([] : List Nat).map r.get? = a.successors.map some := by
      cases a <;> first | contradiction | rfl
    refine .of_new h hnew (h.enter hnew hstored [] hids _ ?_)
    intro key id
    by_cases hkey : ActionDb.hashKey toDecision a.type = key
    · subst hkey
      simp [hleaf, or_comm, h.length]
    · rw [Function.update_of_ne (Ne.symm hkey)]
      simp [hkey]

theorem uniqueAction_count (h : Stores toDecision db r) (p : Bucket)
    {c1 : Action} {i1 : Nat} (h1 : r.get? i1 = some c1) :
    Shared toDecision r (.count p c1)
      (match (db.referers i1).find? (db.actionEq (.atCount p)) with
      | some referer => (referer, db)
      | none =>
          (db.nodes.length,
            (db.alloc (.atCount p) none (some i1)).addReferer i1
              db.nodes.length)) := by
  split
  · rename_i referer hfind
    obtain ⟨a, ha, hsucc⟩ :=
      (h.referers h1 referer).mp (List.mem_of_find?_eq_some hfind)
    have htype := (h.actionEq ha _).mp (List.find?_some hfind)
    refine .of_found h ?_
    cases a <;> simp_all [Action.type, Action.successors]
  · rename_i hfind
    have hnew : Action.count p c1 ∉ r.entries := by
      rw [Register.mem_iff]
      rintro ⟨id, hid⟩
      have hmem := (h.referers h1 id).mpr
        ⟨_, hid, by simp [Action.successors]⟩
      have heq := (h.actionEq hid (.atCount p)).mpr rfl
      exact absurd heq (List.find?_eq_none.mp hfind id hmem)
    have hstored : StoredAs r r.size ⟨.atCount p, none, some i1, []⟩
        (.count p c1) := ⟨rfl, i1, Register.get?_lt h1, rfl, h1⟩
    have hstores := h.enter hnew hstored [i1]
      (by simp [Action.successors, h1]) db.hash (by simp [Action.isLeaf])
    rw [← h.length] at hstores
    exact .of_new h hnew hstores

/-- A referer of both successors with the right bucket is the action looked
for: another one would cover it. -/
theorem uniqueAction_conform (h : Stores toDecision db r) (p : Bucket)
    {c0 c1 : Action} {i0 i1 : Nat} (h0 : r.get? i0 = some c0)
    (h1 : r.get? i1 = some c1)
    (hsep : Separated (r.enter (.conform p c0 c1))) :
    Shared toDecision r (.conform p c0 c1)
      (match (db.referers i0).find? fun referer =>
          db.actionEq (.atConform p) referer &&
            (db.referers i1).contains referer with
      | some referer => (referer, db)
      | none =>
          (db.nodes.length,
            ((db.alloc (.atConform p) (some i0) (some i1)).addReferer i0
              db.nodes.length).addReferer i1 db.nodes.length)) := by
  have hext := Register.extends_enter r (.conform p c0 c1)
  have hcandidate {id : Nat} (hid : r.get? id = some (.conform p c0 c1)) :
      id ∈ db.referers i0 ∧ (db.actionEq (.atConform p) id &&
        (db.referers i1).contains id) = true := by
    have hmem0 := (h.referers h0 id).mpr ⟨_, hid, by simp [Action.successors]⟩
    have hmem1 := (h.referers h1 id).mpr ⟨_, hid, by simp [Action.successors]⟩
    have heq := (h.actionEq hid (.atConform p)).mpr rfl
    simp [hmem0, hmem1, heq]
  split
  · rename_i referer hfind
    have hcheck := List.find?_some hfind
    rw [Bool.and_eq_true, List.contains_iff_mem] at hcheck
    obtain ⟨a, ha, hsucc0⟩ :=
      (h.referers h0 referer).mp (List.mem_of_find?_eq_some hfind)
    obtain ⟨a', ha', hsucc1⟩ := (h.referers h1 referer).mp hcheck.2
    cases ha.symm.trans ha'
    have htype := (h.actionEq ha _).mp hcheck.1
    have hcovers : a.Covers (.conform p c0 c1) :=
      ⟨⟨p, htype, rfl⟩, List.cons_subset.mpr ⟨hsucc0,
        List.cons_subset.mpr ⟨hsucc1, List.nil_subset _⟩⟩⟩
    obtain ⟨id, hid⟩ := Register.get?_of_mem_enter r (.conform p c0 c1)
    have hle : referer = id := by
      apply Nat.le_antisymm
      · by_cases hnew : Action.conform p c0 c1 ∈ r.entries
        · rw [Register.enter_of_mem hnew] at hid
          obtain ⟨hmem, hcheck⟩ := hcandidate hid
          exact find?_le (h.sorted i0) hfind hmem hcheck
        · rw [Register.get?_enter hnew] at hid
          split at hid
          · rename_i heq
            rw [heq]
            exact Nat.le_of_lt (Register.get?_lt ha)
          · exact absurd (Register.mem_iff.mpr ⟨id, hid⟩) hnew
      · by_contra hlt
        exact hsep.not_covers (hext.get? ha) hid (Nat.lt_of_not_le hlt) hcovers
    subst hle
    have heq := (hext.get? ha).symm.trans hid
    cases heq
    exact .of_found h ha
  · rename_i hfind
    have hnew : Action.conform p c0 c1 ∉ r.entries := by
      rw [Register.mem_iff]
      rintro ⟨id, hid⟩
      obtain ⟨hmem, hcheck⟩ := hcandidate hid
      exact absurd hcheck (List.find?_eq_none.mp hfind id hmem)
    have hstores := h.enter hnew
      ⟨rfl, ⟨i0, Register.get?_lt h0, rfl, h0⟩,
        i1, Register.get?_lt h1, rfl, h1⟩ [i0, i1]
      (by simp [Action.successors, h0, h1]) db.hash (by simp [Action.isLeaf])
    rw [← h.length] at hstores
    exact .of_new h hnew hstores

private theorem uniqueAction_leaf (h : Stores toDecision db r) {a : Action}
    (hleaf : a.isLeaf = true) :
    Stores toDecision (db.uniqueAction toDecision a).2
        (r.enterAll a.postorder) ∧
      (r.enterAll a.postorder).get? (db.uniqueAction toDecision a).1 =
        some a := by
  have hshared := hashFind_shared h hleaf
  cases a <;> first
    | contradiction
    | exact ⟨hshared.stores, hshared.found⟩

theorem uniqueAction_shared {a : Action} (h : Stores toDecision db r)
    (hsep : Separated (r.enterAll a.postorder)) :
    Stores toDecision (db.uniqueAction toDecision a).2
        (r.enterAll a.postorder) ∧
      (r.enterAll a.postorder).get? (db.uniqueAction toDecision a).1 =
        some a := by
  induction a generalizing db r with
  | conform p c0 c1 ih0 ih1 =>
      simp only [Action.postorder, Register.enterAll_append,
        Register.enterAll_singleton] at hsep ⊢
      have hext1 := Register.extends_enterAll (r.enterAll c0.postorder)
        c1.postorder
      have hsep1 := hsep.of_extends (Register.extends_enter _ _)
      obtain ⟨hstores0, h0⟩ := ih0 h (hsep1.of_extends hext1)
      obtain ⟨hstores1, h1⟩ := ih1 hstores0 hsep1
      have hshared := uniqueAction_conform hstores1 p (hext1.get? h0) h1 hsep
      exact ⟨hshared.stores, hshared.found⟩
  | count p c1 ih1 =>
      simp only [Action.postorder, Register.enterAll_append,
        Register.enterAll_singleton] at hsep ⊢
      obtain ⟨hstores1, h1⟩ :=
        ih1 h (hsep.of_extends (Register.extends_enter _ _))
      have hshared := uniqueAction_count hstores1 p h1
      exact ⟨hshared.stores, hshared.found⟩
  | _ => exact uniqueAction_leaf h rfl

end

/-! Whole runs: the trees registered one after the other. -/

def registered (toDecision : Class → Nat) (trees : List Action) : ActionDb :=
  trees.foldl (fun db a => db.toUnique toDecision a) .empty

/-- All subtrees in the order of their first registration. -/
def enteredActions (trees : List Action) : Register Action :=
  Register.empty.enterAll (trees.flatMap Action.postorder)

theorem toUnique_nodes (toDecision : Class → Nat) (a : Action)
    (db : ActionDb) :
    (db.toUnique toDecision a).nodes = (db.uniqueAction toDecision a).2.nodes ∧
      (db.toUnique toDecision a).hash =
        (db.uniqueAction toDecision a).2.hash := by
  simp only [ActionDb.toUnique]
  split <;> exact ⟨rfl, rfl⟩

/-- The list from `root` has no part in sharing. -/
theorem Stores.congr {toDecision : Class → Nat} {db db' : ActionDb}
    {r : Register Action} (h : Stores toDecision db r)
    (hnodes : db'.nodes = db.nodes) (hhash : db'.hash = db.hash) :
    Stores toDecision db' r where
  length := hnodes ▸ h.length
  node := hnodes ▸ h.node
  referers hb referer := by
    simp only [ActionDb.referers, hnodes]
    exact h.referers hb referer
  sorted id := by
    simp only [ActionDb.referers, hnodes]
    exact h.sorted id
  hash := hhash ▸ h.hash

theorem registered_stores (toDecision : Class → Nat) {trees : List Action}
    (hsep : Separated (enteredActions trees)) :
    Stores toDecision (registered toDecision trees)
      (enteredActions trees) := by
  induction trees using List.reverseRecOn with
  | nil => exact stores_empty
  | append_singleton trees a ih =>
      rw [enteredActions, List.flatMap_append, Register.enterAll_append]
        at hsep ⊢
      rw [List.flatMap_singleton] at hsep ⊢
      have hstores := ih (hsep.of_extends (Register.extends_enterAll _ _))
      have hnodes := toUnique_nodes toDecision a (registered toDecision trees)
      have hfold : registered toDecision (trees ++ [a]) =
          (registered toDecision trees).toUnique toDecision a := by
        simp [registered]
      rw [hfold]
      exact (uniqueAction_shared hstores hsep).1.congr hnodes.1 hnodes.2

/-- As long as no action covers one that is registered after it, the shared
action of every tree evaluates as the tree does. -/
theorem uniqueAction_evaluate (toDecision : Class → Nat)
    (trees : List Action) (t : Action)
    (hsep : Separated (enteredActions (trees ++ [t])))
    (conforms : Bucket → Bool) :
    let (id, db) := (registered toDecision trees).uniqueAction toDecision t
    db.evaluate conforms id = some (t.evaluate conforms) := by
  rw [enteredActions, List.flatMap_append, Register.enterAll_append,
    List.flatMap_singleton] at hsep
  have hstores := registered_stores toDecision
    (hsep.of_extends (Register.extends_enterAll _ _))
  obtain ⟨hshared, hfound⟩ := uniqueAction_shared hstores hsep
  exact hshared.evaluate conforms hfound

theorem uniqueAction_evaluate_two_buckets :
    let trees := [Action.conform 0 (.class 2) (.class 1), .count 3 .drop]
    let t := Action.conform 4 (.class 1) (.conform 0 (.class 2) (.class 1))
    let (id, db) := (registered id trees).uniqueAction id t
    db.evaluate (fun p => p == 4) id =
      some (t.evaluate fun p => p == 4) :=
  uniqueAction_evaluate id
    [.conform 0 (.class 2) (.class 1), .count 3 .drop]
    (.conform 4 (.class 1) (.conform 0 (.class 2) (.class 1)))
    (show List.Pairwise _ _ by decide) _

/-- A policer whose two outcomes were registered the other way round. -/
theorem uniqueAction_exchanges_branches :
    let d1 := Data.logicalOr
      (.logicalAnd (.conform 0) (.decision (.drClass 1)))
      (.decision (.drClass 2))
    let d2 := Data.logicalOr
      (.logicalAnd (.conform 0) (.decision (.drClass 2)))
      (.decision (.drClass 1))
    let conforms := fun _ : Bucket => true
    (do
      let db ← ActionDb.empty.registerActions id d1
      let (action, db) ← db.getAction id d2
      .ok (db.evaluate conforms action)) =
        Except.ok (ε := Error) (some ([], .atClass 1)) ∧
    (do
      let action ← addActions d2 .none .none
      .ok ((repeatedActions [] action).evaluate conforms)) =
        Except.ok (ε := Error) ([], .atClass 2) := by
  constructor
  · simp only [ActionDb.registerActions, ActionDb.getAction, addActions]
    rfl
  · simp only [addActions]
    rfl

end Tcng
