import Mathlib.Data.List.Perm.Lattice
import Mathlib.Tactic.Ring
import Tcng.Data
import Tcng.Lib.Ends
import Tcng.Lib.Links

/-! Sorting the classes of a qdisc (`qdisc.c`). -/

namespace Tcng

variable {α : Type} {number : α → BitVec 32}

section

variable [DecidableEq α]

/-- `tmp = *b; *b = *next_b; *next_b = *a; *a = tmp;` -/
def swapClasses (links : Links α) (a b nextB : Option α) : Links α :=
  let tmp := links b
  let links := links.set b (links nextB)
  let links := links.set nextB (links a)
  links.set a tmp

def duplicateClass (n : BitVec 32) : Error :=
  .error ("duplicate class number " ++ toString n.toNat)

/-- The loop over `b`. -/
def sortAgainst (number : α → BitVec 32) :
    Nat → Links α → Option α → Option α → Except Error (Links α)
  | 0, _, _, _ => .error .outOfFuel
  | fuel + 1, links, a, b =>
      match links b, links a with
      | none, _ => .ok links
      | some _, none => .error (.assertion "*a")
      | some current, some first =>
          let nextB := some current
          if number current < number first then
            sortAgainst number fuel (swapClasses links a b nextB) a nextB
          else if number first = number current then
            .error (duplicateClass (number first))
          else sortAgainst number fuel links a nextB

/-- The loop over `a`. -/
def sortFrom (number : α → BitVec 32) :
    Nat → Links α → Option α → Except Error (Links α)
  | 0, _, _ => .error .outOfFuel
  | fuel + 1, links, a =>
      match links a with
      | none => .ok links
      | some first => do
          let links ← sortAgainst number fuel links a (some first)
          match links a with
          | none => .error (.assertion "*a")
          | some first => sortFrom number fuel links (some first)

/-- The links hold a list that begins at `none`. -/
def sortClasses (number : α → BitVec 32) (fuel : Nat) (links : Links α) :
    Except Error (Links α) :=
  sortFrom number fuel links none

end

/-! ## One class against those behind it -/

/-- Behind `a` stand `first`, the classes it has been compared with, and those
from `b` on. -/
structure Sifting (number : α → BitVec 32) (links : Links α) (a : Option α)
    (first : α) (seen rest : List α) : Prop where
  start : links a = some first
  passed : links.Path (some first) seen
  ahead : links.Chain (Links.lastLink (some first) seen) rest
  fresh : (a :: (first :: (seen ++ rest)).map some).Nodup
  below : ∀ x ∈ seen, number first < number x

/-- The smallest class has been brought to the front, and no other link has
been touched. -/
structure Sifted (number : α → BitVec 32) (links links' : Links α)
    (a : Option α) (nodes : List α) (least : α) (behind : List α) : Prop where
  linked : links'.Chain a (least :: behind)
  perm : (least :: behind).Perm nodes
  below : ∀ x ∈ behind, number least < number x
  frame : ∀ link ∉ a :: nodes.map some, links' link = links link

/-- The message of a run that met two classes with one number. -/
def Repeated (number : α → BitVec 32) (nodes : List α) (e : Error) : Prop :=
  (∃ n, e = duplicateClass n) ∧ ¬(nodes.map number).Nodup

section

variable {links links' links₂ : Links α} {a : Option α}
  {first current least : α} {seen rest nodes nodes' behind : List α}

theorem Repeated.perm {e : Error} (h : Repeated number nodes' e)
    (hperm : nodes'.Perm nodes) : Repeated number nodes e :=
  ⟨h.1, fun hnodup => h.2 ((hperm.map number).nodup_iff.mpr hnodup)⟩

/-- A larger class is passed over. -/
theorem Sifting.pass (h : Sifting number links a first seen (current :: rest))
    (hlt : number first < number current) :
    Sifting number links a first (seen ++ [current]) rest where
  start := h.start
  passed := Links.path_append.mpr ⟨h.passed, h.ahead.1, Links.path_nil⟩
  ahead := by
    rw [Links.lastLink_append]
    exact h.ahead.2
  fresh := by
    rw [List.append_assoc]
    exact h.fresh
  below := by
    intro x hx
    rcases List.mem_append.mp hx with hseen | hcurrent
    · exact h.below x hseen
    · rw [List.mem_singleton.mp hcurrent]
      exact hlt

/-- The links that the exchange writes are different ones, and none of them is
passed between the first class and the one taken out. -/
private theorem Sifting.apart
    (h : Sifting number links a first seen (current :: rest)) :
    a ∉ some first :: seen.map some ∧ a ≠ some current ∧
      (∀ x ∈ rest, some x ≠ a) ∧
      some current ∉ some first :: seen.map some ∧
      (∀ x ∈ rest, x ≠ current) ∧
      (∀ x ∈ rest, some x ∉ some first :: seen.map some) ∧
      (some first :: seen.map some).Nodup := by
  have hfresh := h.fresh
  rw [← List.cons_append, List.map_append] at hfresh
  obtain ⟨ha, hnodes⟩ := List.nodup_cons.mp hfresh
  obtain ⟨hseen, hbehind, hapart⟩ := List.nodup_append.mp hnodes
  obtain ⟨hcurrent, hrest⟩ := List.nodup_cons.mp hbehind
  rw [List.mem_append, not_or] at ha
  obtain ⟨haseen, habehind⟩ := ha
  refine ⟨haseen, ?_, ?_, ?_, ?_, ?_, hseen⟩
  · intro heq
    exact habehind (heq ▸ List.mem_cons_self)
  · intro x hx heq
    exact habehind (heq ▸ List.mem_map_of_mem (List.mem_cons_of_mem _ hx))
  · intro hmem
    exact hapart _ hmem (some current) (by simp) rfl
  · intro x hx heq
    exact hcurrent (heq ▸ List.mem_map_of_mem hx)
  · intro x hx hmem
    exact hapart _ hmem (some x) (by simp [hx]) rfl

/-- The end of the list is reached. -/
theorem Sifting.sifted (h : Sifting number links a first seen []) :
    Sifted number links links a (first :: (seen ++ [])) first seen where
  linked := by
    rw [← List.append_nil seen]
    exact ⟨h.start, Links.chain_append.mpr ⟨h.passed, h.ahead⟩⟩
  perm := by rw [List.append_nil]
  below := h.below
  frame := fun _ _ => rfl

/-- What is found after a step is what is found from there. -/
theorem Sifted.before (h : Sifted number links' links₂ a nodes' least behind)
    (hperm : nodes'.Perm nodes)
    (hframe : ∀ link ∉ a :: nodes.map some, links' link = links link) :
    Sifted number links links₂ a nodes least behind where
  linked := h.linked
  perm := h.perm.trans hperm
  below := h.below
  frame := by
    intro link hlink
    rw [← hframe link hlink]
    apply h.frame
    exact fun hmem => hlink (((hperm.map some).cons a).mem_iff.mp hmem)

/-- Only classes behind the new first one can still be smaller. -/
theorem Sifting.countP_swap
    (h : Sifting number links a first seen (current :: rest))
    (hlt : number current < number first) :
    (first :: (seen ++ rest)).countP (number · < number current) ≤
      rest.countP (number · < number first) := by
  have hseen : seen.countP (number · < number current) = 0 := by
    rw [List.countP_eq_zero]
    intro x hx
    have hx := h.below x hx
    simp only [decide_eq_true_eq]
    exact BitVec.not_lt.mpr (BitVec.le_of_lt (BitVec.lt_trans hlt hx))
  have hrest : rest.countP (number · < number current) ≤
      rest.countP (number · < number first) := by
    apply List.countP_mono_left
    intro x hx hlt'
    simp only [decide_eq_true_eq] at hlt' ⊢
    exact BitVec.lt_trans hlt' hlt
  rw [List.countP_cons_of_neg (by simpa using BitVec.le_of_lt hlt),
    List.countP_append, hseen, Nat.zero_add]
  exact hrest

private theorem swap_perm :
    (current :: ([] ++ first :: (seen ++ rest))).Perm
      (first :: (seen ++ current :: rest)) :=
  ((List.perm_middle.cons first).trans (List.Perm.swap current first _)).symm

/-- The steps that are left: after each exchange all of the list is passed once
more. -/
def siftSteps (number : α → BitVec 32) (first : α) (seen rest : List α) : Nat :=
  rest.countP (number · < number first) * (seen.length + rest.length + 1) +
    rest.length

theorem siftSteps_start (number : α → BitVec 32) (first : α) (rest : List α) :
    siftSteps number first [] rest < (rest.length + 1) ^ 2 := by
  have hcount : rest.countP (number · < number first) ≤ rest.length :=
    List.countP_le_length
  have hmul := Nat.mul_le_mul_right (rest.length + 1) hcount
  simp only [siftSteps, List.length_nil, Nat.zero_add]
  calc _ ≤ rest.length * (rest.length + 1) + rest.length :=
        Nat.add_le_add_right hmul _
    _ < (rest.length + 1) ^ 2 := by
        rw [Nat.pow_two, Nat.add_mul]
        omega

theorem siftSteps_swap
    (h : Sifting number links a first seen (current :: rest))
    (hlt : number current < number first) :
    siftSteps number current [] (first :: (seen ++ rest)) <
      siftSteps number first seen (current :: rest) := by
  have hcount := Nat.mul_le_mul_right (seen.length + (rest.length + 1) + 1)
    (h.countP_swap hlt)
  have hlength : 0 + (seen.length + rest.length + 1) + 1 =
      seen.length + (rest.length + 1) + 1 := by omega
  simp only [siftSteps, List.length_nil, List.length_cons, List.length_append]
  rw [hlength, List.countP_cons_of_pos (l := rest) (by simpa using hlt),
    Nat.add_mul]
  omega

theorem siftSteps_pass (hlt : number first < number current) :
    siftSteps number first (seen ++ [current]) rest <
      siftSteps number first seen (current :: rest) := by
  have hlength : seen.length + 1 + rest.length + 1 =
      seen.length + (rest.length + 1) + 1 := by omega
  simp only [siftSteps, List.length_cons, List.length_append, List.length_nil,
    Nat.zero_add]
  rw [List.countP_cons_of_neg (by simpa using BitVec.le_of_lt hlt), hlength]
  omega

variable [DecidableEq α]

theorem swapClasses_frame {b nextB link : Option α} (ha : link ≠ a)
    (hb : link ≠ b) (hnext : link ≠ nextB) :
    swapClasses links a b nextB link = links link := by
  simp only [swapClasses]
  rw [Links.set_of_ne ha, Links.set_of_ne hnext, Links.set_of_ne hb]

private theorem swap_frame :
    ∀ link ∉ a :: (first :: (seen ++ current :: rest)).map some,
      swapClasses links a (Links.lastLink (some first) seen) (some current)
        link = links link := by
  intro link hlink
  apply swapClasses_frame
  · exact fun heq => hlink (heq ▸ List.mem_cons_self)
  · rintro rfl
    have hb := Links.lastLink_mem (some first) seen
    simp only [List.map_cons, List.map_append] at hlink
    apply hlink
    grind
  · rintro rfl
    exact hlink (by simp)

/-- A smaller class is taken to the front, and compared with all others
again. -/
theorem Sifting.swap (h : Sifting number links a first seen (current :: rest)) :
    Sifting number
      (swapClasses links a (Links.lastLink (some first) seen) (some current))
      a current [] (first :: (seen ++ rest)) := by
  obtain ⟨ha, hcurrent, harest, hseen, hrest, hapart, hnodup⟩ := h.apart
  have hb := Links.lastLink_mem (some first) seen
  have hab : a ≠ Links.lastLink (some first) seen := ne_of_mem_of_not_mem hb ha |>.symm
  have hbcurrent : Links.lastLink (some first) seen ≠ some current :=
    ne_of_mem_of_not_mem hb hseen
  have hpassed := (h.passed.set_last hnodup (links (some current))).set hseen
    ((links.set (Links.lastLink (some first) seen) (links (some current))) a)
  constructor
  case start =>
    simp only [swapClasses, Links.set_self]
    exact h.ahead.1
  case passed => exact Links.path_nil
  case ahead =>
    refine ⟨?_, Links.chain_append.mpr ⟨hpassed.set ha _, ?_⟩⟩
    · simp only [swapClasses, Links.lastLink]
      rw [Links.set_of_ne hcurrent.symm, Links.set_self, Links.set_of_ne hab]
      exact h.start
    · apply h.ahead.2.moved
      · simp only [swapClasses]
        rw [Links.set_of_ne hab.symm, Links.set_of_ne hbcurrent, Links.set_self]
      · intro x hx
        apply swapClasses_frame (harest x hx)
        · exact (ne_of_mem_of_not_mem hb (hapart x hx)).symm
        · exact fun heq => hrest x hx (Option.some.inj heq)
  case fresh =>
    exact (((swap_perm.map some).cons a).nodup_iff).mpr h.fresh
  case below => exact fun x hx => absurd hx List.not_mem_nil

theorem sortAgainst_ends {fuel : Nat}
    (h : Sifting number links a first seen rest)
    (hfuel : siftSteps number first seen rest < fuel) :
    (sortAgainst number fuel links a (Links.lastLink (some first) seen)).Ends
      (fun links' => ∃ least behind,
        Sifted number links links' a (first :: (seen ++ rest)) least behind)
      (Repeated number (first :: (seen ++ rest))) := by
  induction fuel generalizing links first seen rest with
  | zero => omega
  | succ fuel ih =>
      cases rest with
      | nil =>
          have hend : links (Links.lastLink (some first) seen) = none := h.ahead
          simp only [sortAgainst, hend, h.start, Except.ends_ok]
          exact ⟨first, seen, h.sifted⟩
      | cons current rest =>
          have hb : links (Links.lastLink (some first) seen) = some current :=
            h.ahead.1
          simp only [sortAgainst, hb, h.start]
          split
          · next hlt =>
            have hfewer := siftSteps_swap h hlt
            have hrest := ih h.swap (by omega)
            apply (hrest.mono_error fun e he => he.perm swap_perm).mono
            intro links' h
            obtain ⟨least, behind, hsifted⟩ := h
            exact ⟨least, behind, hsifted.before swap_perm swap_frame⟩
          · next hle =>
            split
            · next heq =>
              refine ⟨⟨number first, rfl⟩, ?_⟩
              intro hnodup
              apply (List.nodup_cons.mp hnodup).1
              rw [heq]
              exact List.mem_map_of_mem (by simp)
            · next hne =>
              have hlt : number first < number current := by bv_omega
              have hfewer : siftSteps number first (seen ++ [current]) rest <
                  siftSteps number first seen (current :: rest) :=
                siftSteps_pass hlt
              have hrest := ih (h.pass hlt) (by omega)
              rw [Links.lastLink_append, List.append_assoc] at hrest
              exact hrest

end

/-! ## The whole list -/

/-- The classes are in ascending order, and no link in front of them has been
touched. -/
structure Sorted (number : α → BitVec 32) (links links' : Links α)
    (a : Option α) (nodes sorted : List α) : Prop where
  linked : links'.Chain a sorted
  perm : sorted.Perm nodes
  ascending : sorted.Pairwise fun x y => number x < number y
  frame : ∀ link ∉ a :: nodes.map some, links' link = links link

section

variable {links links₁ links₂ : Links α} {a : Option α}
  {least : α} {nodes behind sorted : List α}

/-- A sorted rest behind the smallest class. -/
theorem Sifted.cons (h : Sifted number links links₁ a nodes least behind)
    (hsorted : Sorted number links₁ links₂ (some least) behind sorted)
    (ha : a ∉ nodes.map some) :
    Sorted number links links₂ a nodes (least :: sorted) where
  linked := by
    refine ⟨?_, hsorted.linked⟩
    rw [hsorted.frame a]
    · exact h.linked.1
    · intro hmem
      exact ha (((h.perm.map some).mem_iff).mp hmem)
  perm := (hsorted.perm.cons least).trans h.perm
  ascending := by
    refine List.pairwise_cons.mpr ⟨?_, hsorted.ascending⟩
    intro x hx
    exact h.below x (hsorted.perm.mem_iff.mp hx)
  frame := by
    intro link hlink
    rw [hsorted.frame link]
    · exact h.frame link hlink
    · intro hmem
      apply hlink
      exact List.mem_cons_of_mem _ (((h.perm.map some).mem_iff).mp hmem)

theorem sortFrom_ends [DecidableEq α] {fuel : Nat} (h : links.Chain a nodes)
    (ha : a ∉ nodes.map some) (hfuel : nodes.length ^ 2 < fuel) :
    (sortFrom number fuel links a).Ends
      (fun links' => ∃ sorted, Sorted number links links' a nodes sorted)
      (Repeated number nodes) := by
  induction fuel generalizing links a nodes with
  | zero => omega
  | succ fuel ih =>
      cases nodes with
      | nil =>
          have hend : links a = none := h
          simp only [sortFrom, hend, Except.ends_ok]
          exact ⟨[], h, .refl _, .nil, fun _ _ => rfl⟩
      | cons first nodes =>
          have hstart : Sifting number links a first [] nodes := by
            constructor
            case start => exact h.1
            case passed => exact Links.path_nil
            case ahead => exact h.2
            case fresh =>
              have hnodup := h.nodup.map (Option.some_injective α)
              exact List.nodup_cons.mpr ⟨ha, hnodup⟩
            case below => exact fun x hx => absurd hx List.not_mem_nil
          have hsteps := siftSteps_start number first nodes
          rw [List.length_cons] at hfuel
          have hsifted := sortAgainst_ends hstart
            (Nat.lt_of_lt_of_le hsteps (Nat.lt_succ_iff.mp hfuel))
          simp only [sortFrom, h.1]
          apply hsifted.bind
          intro links₁ h
          obtain ⟨least, behind, hleast⟩ := h
          simp only [hleast.linked.1]
          have hlength : behind.length = nodes.length := by
            simpa using hleast.perm.length_eq
          have hfresh : some least ∉ behind.map some := by
            simpa using (List.nodup_cons.mp hleast.linked.nodup).1
          have hless : nodes.length ^ 2 < (nodes.length + 1) ^ 2 :=
            Nat.pow_lt_pow_left (Nat.lt_succ_self _) two_ne_zero
          have hrest := ih hleast.linked.2 hfresh (by
            rw [hlength]
            omega)
          apply (hrest.mono_error _).mono
          · intro links₂ h
            obtain ⟨sorted, hsorted⟩ := h
            exact ⟨least :: sorted, hleast.cons hsorted ha⟩
          · intro e he
            refine ⟨he.1, fun hnodup => he.2 ?_⟩
            have hperm := hleast.perm.map number
            exact (List.nodup_cons.mp (hperm.nodup_iff.mpr hnodup)).2

end

/-- Sorting ends: with an ascending list if all numbers differ, and with the
message if two are equal. -/
theorem sortClasses_sorts [DecidableEq α] (number : α → BitVec 32)
    (links : Links α) (classes : List α) (hlist : links.Chain none classes)
    (fuel : Nat) (hfuel : classes.length ^ 2 < fuel) :
    ((classes.map number).Nodup →
      ∃ links' sorted, sortClasses number fuel links = .ok links' ∧
        links'.Chain none sorted ∧ sorted.Perm classes ∧
        sorted.Pairwise fun x y => number x < number y) ∧
      ((∃ n, sortClasses number fuel links = .error (duplicateClass n)) ↔
        ¬(classes.map number).Nodup) := by
  have hends : (sortClasses number fuel links).Ends
      (fun links' => ∃ sorted, Sorted number links links' none classes sorted)
      (Repeated number classes) :=
    sortFrom_ends hlist (by simp) hfuel
  cases hrun : sortClasses number fuel links with
  | ok links' =>
      obtain ⟨sorted, hsorted⟩ := hends.of_ok hrun
      have hnodup : (classes.map number).Nodup := by
        rw [← (hsorted.perm.map number).nodup_iff, List.Nodup,
          List.pairwise_map]
        exact hsorted.ascending.imp fun hlt => (BitVec.ne_of_lt hlt)
      refine ⟨fun _ => ⟨links', sorted, rfl, hsorted.linked, hsorted.perm,
        hsorted.ascending⟩, ?_⟩
      exact ⟨fun ⟨_, herror⟩ => (by cases herror),
        fun hrepeated => absurd hnodup hrepeated⟩
  | error e =>
      obtain ⟨⟨n, rfl⟩, hrepeated⟩ := hends.of_error hrun
      exact ⟨fun hnodup => absurd hnodup hrepeated,
        fun _ => hrepeated, fun _ => ⟨n, rfl⟩⟩

/-- The classes 2, 1 and 0 in this order. -/
def threeClasses : Links Nat
  | none => some 2
  | some 2 => some 1
  | some 1 => some 0
  | some _ => none

theorem threeClasses_sorted :
    ∃ links' sorted, sortClasses (BitVec.ofNat 32) 10 threeClasses = .ok links' ∧
      links'.Chain none sorted ∧ sorted.Perm [2, 1, 0] ∧
      sorted.Pairwise fun x y => BitVec.ofNat 32 x < BitVec.ofNat 32 y :=
  (sortClasses_sorts (BitVec.ofNat 32) threeClasses [2, 1, 0]
    ⟨rfl, rfl, rfl, rfl⟩ 10 (by decide)).1 (by decide)

end Tcng
