/-! Decision diagrams with shared nodes, and the decision trees that they
unfold to. Every node has a label, and an edge for each answer to its test. -/

/-- A node without children is a decision. -/
inductive DecisionTree (ν : Type) where
  | leaf (label : ν)
  | node (label : ν) (child : Bool → DecisionTree ν)

namespace DecisionTree

variable {ν : Type}

def root : DecisionTree ν → ν
  | leaf label => label
  | node label _ => label

def size : DecisionTree ν → Nat
  | leaf _ => 1
  | node _ child => (child false).size + (child true).size + 1

/-- The decision reached under an assignment of the tests. -/
def decide (answer : ν → Bool) : DecisionTree ν → ν
  | leaf label => label
  | node label child => (child (answer label)).decide answer

/-- What holds of every node, and of every leaf. -/
def All (test : ν → (Bool → DecisionTree ν) → Prop) (decision : ν → Prop) :
    DecisionTree ν → Prop
  | leaf label => decision label
  | node label child => test label child ∧ ∀ edge, (child edge).All test decision

theorem size_child (label : ν) (child : Bool → DecisionTree ν) (edge : Bool) :
    (child edge).size < (node label child).size := by
  simp only [size]
  cases edge <;> omega

theorem All.mono {test test' : ν → (Bool → DecisionTree ν) → Prop}
    {decision decision' : ν → Prop} {t : DecisionTree ν}
    (h : t.All test decision)
    (htest : ∀ label child, test label child → test' label child)
    (hdecision : ∀ label, decision label → decision' label) :
    t.All test' decision' := by
  induction t with
  | leaf label => exact hdecision label h
  | node label child ih => exact ⟨htest label child h.1, fun edge => ih edge (h.2 edge)⟩

end DecisionTree

namespace Diagram

variable {α ν : Type} {label label' : α → ν} {next next' : α → Bool → Option α}

/-- The tree of a node; there is none if an edge leads nowhere or the diagram
has a cycle. -/
inductive Unfolds (label : α → ν) (next : α → Bool → Option α) :
    α → DecisionTree ν → Prop
  | leaf {a : α} (h : ∀ edge, next a edge = none) :
      Unfolds label next a (.leaf (label a))
  | node {a : α} {b : Bool → α} {child : Bool → DecisionTree ν}
      (h : ∀ edge, next a edge = some (b edge))
      (hchild : ∀ edge, Unfolds label next (b edge) (child edge)) :
      Unfolds label next a (.node (label a) child)

namespace Unfolds

variable {a : α} {t : DecisionTree ν}

theorem root_eq (h : Unfolds label next a t) : t.root = label a := by
  cases h with
  | leaf h => rfl
  | node h hchild => rfl

theorem unique {t' : DecisionTree ν} (h : Unfolds label next a t)
    (h' : Unfolds label next a t') : t = t' := by
  induction h generalizing t' with
  | leaf h =>
      cases h' with
      | leaf h' => rfl
      | node h' hchild => cases (h true).symm.trans (h' true)
  | node h hchild ih =>
      cases h' with
      | leaf h' => cases (h true).symm.trans (h' true)
      | node h' hchild' =>
          congr 1
          funext edge
          have heq := Option.some.inj ((h edge).symm.trans (h' edge))
          exact ih edge (heq ▸ hchild' edge)

/-- A child has a tree of its own, which is smaller. -/
theorem child {b : α} {edge : Bool} (h : Unfolds label next a t)
    (hb : next a edge = some b) :
    ∃ child, t = .node (label a) child ∧ Unfolds label next b (child edge) := by
  cases h with
  | leaf h => cases (h edge).symm.trans hb
  | node h hchild =>
      cases Option.some.inj ((h edge).symm.trans hb)
      exact ⟨_, rfl, hchild edge⟩

/-- The tree depends on the nodes of a closed set only. -/
theorem frame {S : α → Prop} (h : Unfolds label next a t) (ha : S a)
    (hclosed : ∀ b c edge, S b → next b edge = some c → S c)
    (hlabel : ∀ b, S b → label' b = label b)
    (hnext : ∀ b, S b → next' b = next b) : Unfolds label' next' a t := by
  induction h with
  | leaf h =>
      rw [← hlabel _ ha]
      refine .leaf fun edge => ?_
      rw [hnext _ ha]
      exact h edge
  | node h hchild ih =>
      rw [← hlabel _ ha]
      refine .node (fun edge => ?_) fun edge => ih edge (hclosed _ _ edge ha (h edge))
      rw [hnext _ ha]
      exact h edge

end Unfolds

end Diagram
