import Tcng.Formula
import Tcng.Qdiscs.Tos
import Tcng.Tree.Qdisc

/-! Default classification of `cbq`, and the defmaps that are dumped
(`q_cbq.c`). -/

namespace Tcng.Cbq

open ShortCircuit

structure Qdisc where
  priomap : Option (List Class)
  classes : Classes Unit Class
  classPriomap : Class → Option (List Class)

/-! ## Default classification -/

/-- `map[k]` -/
def mapEntry (priomap : List Class) (k : Nat) : Option Class :=
  priomap[k]?.or priomap[0]?

/-- `mask` of `cbq_dump_defmaps_1_tc`, from the `n`-th entry on. -/
def defmap (c : Class) (n : Nat) : List Class → BitVec 32
  | [] => 0
  | ref :: rest =>
      (if ref = c then (1 : BitVec 32) <<< n else 0) ||| defmap c (n + 1) rest

/-- A class with a list of its own, or the root with the list of the qdisc. -/
structure SplitNode where
  split : Class
  priomap : List Class

/-- The bit of the priority is in the defmap of the class for the split node,
or it is in none and the class is the best-effort entry. -/
def SplitNode.SendsTo (node : SplitNode) (prio : Nat) (c : Class) : Prop :=
  (defmap c 0 node.priomap).getLsbD prio = true ∨
    (∀ other, (defmap other 0 node.priomap).getLsbD prio = false) ∧
      node.priomap[0]? = some c

/-! ## The meaning of a replaced decision -/

/-- The accesses of the decisions' tests are not moved: passes that bring
offsets in come later. -/
def Undisplaced : Data → Prop
  | .op .logicalOr _ a b _ => Undisplaced a ∧ Undisplaced b
  | .op .logicalAnd _ a b _ => Undisplaced a ∧ Undisplaced b
  | .op .logicalNot _ a _ _ => Undisplaced a
  | .op .offset .. => False
  | .op .fieldRoot .. => False
  | _ => True

/-- What a decision is replaced by. -/
inductive Choice : Data → Prop
  | decision (d : Decision) : Choice (.decision d)
  | or (a b : Data) : Choice (.logicalOr a b)

/-- Sending a packet to another class. -/
def onClass (f : Class → Class) : Decision → Decision
  | .drClass c => .drClass (f c)
  | d => d

section

variable {dfl : Data} {c c' : Class}

end

/-! ## What the expression chooses -/

/-- The class that the expression for a split node sends a packet to. -/
def SplitNode.choose (node : SplitNode) (k : Nat) : Class :=
  (mapEntry node.priomap k).getD node.split

def nodeOf (priomap : Option (List Class)) (c : Class) : List SplitNode :=
  match priomap with
  | some priomap => [⟨c, priomap⟩]
  | none => []

/-- The split nodes from the top down. -/
def splitNodes (priomap : Class → Option (List Class)) :
    Classes Unit Class → List SplitNode
  | .null => []
  | .class c _ child next =>
      nodeOf (priomap c) c ++ (splitNodes priomap child ++ splitNodes priomap next)

def Qdisc.nodes (qdisc : Qdisc) (root : Class) : List SplitNode :=
  nodeOf qdisc.priomap root ++ splitNodes qdisc.classPriomap qdisc.classes

/-- Where a packet gets to from a class. -/
def walk (k : Nat) : List SplitNode → Class → Class
  | [], c => c
  | node :: rest, c => walk k rest (if c = node.split then node.choose k else c)

/-- The split nodes that it passes. -/
def passed (k : Nat) : List SplitNode → Class → List SplitNode
  | [], _ => []
  | node :: rest, c =>
      if c = node.split then node :: passed k rest (node.choose k)
      else passed k rest c

theorem walk_append (k : Nat) (xs ys : List SplitNode) (c : Class) :
    walk k (xs ++ ys) c = walk k ys (walk k xs c) := by
  induction xs generalizing c with
  | nil => rfl
  | cons node xs ih => exact ih _

/-- The tests built for the places from `i` on. -/
structure Resolves (map : Nat → Option Class) (thisClass : Class) (i : Nat)
    (e : Data) : Prop where
  choice : Choice e
  undisplaced : Undisplaced e
  eval : ∀ env : Env, e.eval env .start = .decide (.drClass
    (if i ≤ tosIndex env.packet then
      (map (tosIndex env.packet)).getD thisClass else thisClass))

section

variable {map : Nat → Option Class} {thisClass : Class} {i : Nat} {e e' : Data}

theorem Choice.logical (h : Choice e) : e.logical = true := by
  cases h <;> rfl

theorem Resolves.skip (h : Resolves map thisClass (i + 1) e)
    (hnone : map i = none) : Resolves map thisClass i e where
  choice := h.choice
  undisplaced := h.undisplaced
  eval := by
    intro env
    rw [h.eval]
    rcases Nat.lt_trichotomy (tosIndex env.packet) i with hlt | heq | hgt
    · rw [if_neg (by omega), if_neg (by omega)]
    · rw [if_neg (by omega), if_pos (by omega), heq, hnone]
      rfl
    · rw [if_pos (by omega), if_pos (by omega)]

theorem Resolves.cons (h : Resolves map thisClass (i + 1) e) (hi : i < 16)
    {c : Class} (hc : map i = some c) :
    Resolves map thisClass i
      (.logicalOr (.logicalAnd (tosTest i) (.decision (.drClass c))) e) where
  choice := .or _ _
  undisplaced := ⟨⟨trivial, trivial⟩, h.undisplaced⟩
  eval := by
    intro env
    rw [Data.eval_logicalOr, h.eval, tosExpr_eval hi]
    rcases Nat.lt_trichotomy (tosIndex env.packet) i with hlt | heq | hgt
    · rw [if_neg (by omega), if_neg (by omega), if_neg (by omega)]
      rfl
    · rw [if_pos heq, heq, if_pos (le_refl i), hc]
      rfl
    · rw [if_neg (by omega), if_pos (by omega), if_pos (by omega)]
      rfl

/-- The split nodes have been worked into an expression. -/
structure Pushed (nodes : List SplitNode) (d d' : Data) : Prop where
  undisplaced : Undisplaced d'
  eval : ∀ env : Env, d'.eval env .start =
    (d.eval env .start).map (onClass (walk (tosIndex env.packet) nodes))

theorem Pushed.refl {d : Data} (hd : Undisplaced d) : Pushed [] d d where
  undisplaced := hd
  eval := by
    intro env
    have hid : onClass (walk (tosIndex env.packet) []) = fun d => d := by
      funext d
      cases d <;> rfl
    rw [hid, Eval.map_id]

theorem Pushed.trans {xs ys : List SplitNode} {d d₁ d₂ : Data}
    (h : Pushed xs d d₁) (h' : Pushed ys d₁ d₂) : Pushed (xs ++ ys) d d₂ where
  undisplaced := h'.undisplaced
  eval := by
    intro env
    rw [h'.eval, h.eval, Eval.map_map]
    congr 1
    funext d
    cases d with
    | drClass c => rw [onClass, onClass, onClass, walk_append]
    | _ => rfl

end

/-! ## The defmaps -/

/-- The packet is sent on from the split node as the defmaps say. -/
def SplitNode.SentAsDumped (node : SplitNode) (packet : Packet) : Prop :=
  node.SendsTo (ipTos2prio (tosIndex packet)) (node.choose (tosIndex packet))

/-- The list has the same class at the place of the packet's TOS and at its
priority. -/
def SplitNode.Agrees (node : SplitNode) (packet : Packet) : Prop :=
  node.priomap ≠ [] ∧ mapEntry node.priomap (tosIndex packet) =
    mapEntry node.priomap (ipTos2prio (tosIndex packet))

end Tcng.Cbq
