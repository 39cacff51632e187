import Tcng.Formula
import Tcng.Qdiscs.Tos
import Tcng.Tree.ClassIds
import Tcng.Tree.SortClasses

/-! The check of a `prio` qdisc and its default classification
(`q_prio.c`). -/

namespace Tcng.Prio

open ShortCircuit

/-! ## Checking -/

/-- An entry of `priomap`; anything but a class is known by its type. -/
inductive Entry
  | toClass (c : Class)
  | other (typeName : String)

structure Qdisc where
  root : Classes Unit Class
  filters : Class → Bool
  bands : Option (BitVec 32)
  priomap : Option (List Entry)
  checkQdisc : Class → Except Error Unit
  checkFilters : Except Error Unit

/-- The classes that `next` links, and whether they have children. -/
def siblings : Classes Unit Class → List (Class × Bool)
  | .null => []
  | .class c _ .null next => (c, false) :: siblings next
  | .class c _ (.class ..) next => (c, true) :: siblings next

def ordinal (n : Nat) : String :=
  toString n ++ if n = 1 then "st" else if n = 2 then "nd" else "th"

/-- The loop over `priomap`, and its `n` at the end. -/
def checkEntries (n : Nat) : List Entry → Except Error Nat
  | [] => .ok n
  | entry :: rest =>
      if 16 < n + 1 then .error (.error "too many entries in priomap")
      else
        match entry with
        | .toClass _ => checkEntries (n + 1) rest
        | .other typeName =>
            .error (.error ("invalid type in " ++ ordinal (n + 1) ++
              " entry of \"priomap\" (expected class, not " ++ typeName ++ ")"))

def checkPriomap (bands : BitVec 32) (entries : List Entry) :
    Except Error Unit := do
  let n ← checkEntries 0 entries
  if (List.range' n (16 - n)).any fun k =>
      decide (bands.toInt ≤ (defaultPriomap k : Int)) then
    .error (.error
      "\"priomap\" too short to cover default entries exceeding allowed bands")
  else .ok ()

/-- The loop over the classes, with `bands` at its end. -/
def checkClasses (qdisc : Qdisc) (maxBands : BitVec 32) :
    List (Class × Bool) → BitVec 32 → Program ClassIds Error (BitVec 32)
  | [], bands => pure bands
  | (c, child) :: rest, bands => do
      let s ← .get
      .refuse (s.number c = 0 ∨ maxBands < s.number c)
        (.error ("prio class number must be in the range 1.." ++
          toString maxBands.toInt))
      .refuse (child = true) (.error "prio does not have nested classes")
      .refuse (qdisc.filters c = true)
        (.error "prio classes don't have local filters")
      .lift (qdisc.checkQdisc c)
      checkClasses qdisc maxBands rest
        (if bands < s.number c then s.number c else bands)

/-- The result is what `bands` is set to if it was not given. -/
def prioCheck (qdisc : Qdisc) (fuel : Nat) :
    Program ClassIds Error (BitVec 32) := do
  .modify fun s => { s with currId := 1 }
  assignClassIds qdisc.root
  let bands := qdisc.bands.getD 3
  let maxBands := qdisc.bands.getD 16
  match qdisc.priomap with
  | some entries => .lift (checkPriomap bands entries)
  | none => .refuse (bands.toInt < 3) (.error
      "must set priomap if < 3 bands, because default priomap uses 3rd band")
  let bands ← checkClasses qdisc maxBands (siblings qdisc.root) bands
  let s ← .get
  let classes := (siblings qdisc.root).map Prod.fst
  let _ ← .lift (sortClasses s.number fuel (Links.ofList classes))
  .lift qdisc.checkFilters
  pure bands

/-! ## Default classification -/

/-- The loop over `priomap` that looks for its `i`-th entry; the counter is not
moved. -/
def findBand (number : Class → BitVec 32) (i n : Nat) :
    List Class → Option (BitVec 32)
  | [] => none
  | c :: rest => if n = i then some (number c) else findBand number i n rest

def bandOf (priomap : List Class) (number : Class → BitVec 32) (i : Nat) :
    BitVec 32 :=
  (findBand number i 0 priomap).getD
    (BitVec.ofNat 32 (defaultPriomap (ipTos2prio i)))

/-- `for (i = 15; i >= 0; i--)`, with `last` -/
def defaultChain (priomap : List Class) :
    Nat → Option Data → Program ClassList Error (Option Data)
  | 0, last => pure last
  | i + 1, last => do
      let s ← .get
      let c ← requireClass (bandOf priomap s.number i + 1)
      let dfl ← if i < 15 then .lift (tosExpr i c)
        else pure (.decision (.drClass c))
      let last ← match last with
        | none => pure dfl
        | some last => .lift (opBinary .logicalOr dfl last)
      defaultChain priomap i (some last)

/-- A missing `priomap` is an empty one here. -/
def prioDefaultClass (priomap : List Class) (d : Data) :
    Program ClassList Error Data := do
  let last ← defaultChain priomap 16 none
  .lift (appendDefault d (last.getD .none))

/-! ## What is dumped -/

/-- `tc_more(" %d",(int) walk->ref->u.class->number-1)` -/
def dumpPriomap (priomap : List Class) (number : Class → BitVec 32) :
    List (BitVec 32) :=
  priomap.map fun c => number c - 1

/-- The band of a priority in the dumped qdisc: the default priomap goes on
where the list ends. -/
def dumpedBand (priomap : List Class) (number : Class → BitVec 32)
    (prio : Nat) : BitVec 32 :=
  (dumpPriomap priomap number)[prio]?.getD
    (BitVec.ofNat 32 (defaultPriomap prio))

/-! ## What the default expression chooses -/

/-- The expression built for the places from `i` on sends each packet to the
class picked for its place; behind the tests is the class of the last one. -/
structure Picks (priomap : List Class) (s : ClassList) (i : Nat) (e : Data)
    (pick : Nat → Class) : Prop where
  allocated : ∀ j, i ≤ j → j < 16 → pick j < s.next
  number : ∀ j, i ≤ j → j < 16 →
    s.number (pick j) = bandOf priomap s.number j + 1
  eval : ∀ env : Env, e.eval env .start = .decide (.drClass
    (pick (if i ≤ tosIndex env.packet then tosIndex env.packet else 15)))

section

variable {priomap : List Class} {s s' : ClassList} {i : Nat} {e : Data}
  {pick : Nat → Class}

theorem findBand_congr (number number' : Class → BitVec 32)
    (h : ∀ c ∈ priomap, number' c = number c) (i n : Nat) :
    findBand number' i n priomap = findBand number i n priomap := by
  induction priomap with
  | nil => rfl
  | cons c rest ih =>
      rw [findBand, findBand, h c (by simp),
        ih fun a ha => h a (List.mem_cons_of_mem _ ha)]

theorem bandOf_extends (h : s.Extends s') (hlist : ∀ c ∈ priomap, c < s.next)
    (i : Nat) : bandOf priomap s'.number i = bandOf priomap s.number i := by
  rw [bandOf, bandOf,
    findBand_congr s.number s'.number fun c hc => h.number c (hlist c hc)]

theorem Picks.extends (h : Picks priomap s i e pick) (hs : s.Extends s')
    (hlist : ∀ c ∈ priomap, c < s.next) : Picks priomap s' i e pick where
  allocated j hij hj := lt_of_lt_of_le (h.allocated j hij hj) hs.next
  number j hij hj := by
    rw [hs.number _ (h.allocated j hij hj), h.number j hij hj,
      bandOf_extends hs hlist]
  eval := h.eval

/-- One more place is put in front. -/
theorem Picks.cons (h : Picks priomap s (i + 1) e pick) (hi : i < 15)
    {c : Class} (hc : c < s.next)
    (hnumber : s.number c = bandOf priomap s.number i + 1) {d d' : Data}
    (hd : tosExpr i c = .ok d) (hd' : opBinary .logicalOr d e = .ok d') :
    Picks priomap s i d' (Function.update pick i c) where
  allocated := by
    intro j hij hj
    rcases eq_or_ne j i with rfl | hne
    · rw [Function.update_self]
      exact hc
    · rw [Function.update_of_ne hne]
      exact h.allocated j (by omega) hj
  number := by
    intro j hij hj
    rcases eq_or_ne j i with rfl | hne
    · rw [Function.update_self]
      exact hnumber
    · rw [Function.update_of_ne hne]
      exact h.number j (by omega) hj
  eval := by
    intro env
    cases (tosExpr_eq i c).symm.trans hd
    rw [eval_orEval hd', h.eval, tosExpr_eval (by omega)]
    rcases Nat.lt_trichotomy (tosIndex env.packet) i with hlt | heq | hgt
    · rw [if_neg (by omega), if_neg (by omega), if_neg (by omega),
        Function.update_of_ne (by omega)]
      rfl
    · rw [if_pos heq, heq, if_pos (le_refl i), Function.update_self]
      rfl
    · rw [if_neg (by omega), if_pos (by omega), if_pos (by omega),
        Function.update_of_ne (by omega)]
      rfl

theorem defaultChain_picks (hi : i ≤ 15) (hlist : ∀ c ∈ priomap, c < s.next)
    (h : Picks priomap s i e pick) :
    Program.wp (defaultChain priomap i (some e))
      (fun last s' => s.Extends s' ∧
        ∃ e' pick', last = some e' ∧ Picks priomap s' 0 e' pick')
      (fun _ _ => True) s := by
  induction i generalizing s e pick with
  | zero => exact ⟨.refl s, e, pick, rfl, h⟩
  | succ i ih =>
      rw [defaultChain, Program.wp_bind, Program.wp_get, Program.wp_bind]
      apply Program.wp_mono (requireClass_spec _ s) _ (fun _ _ h => h.elim)
      rintro c s₁ ⟨hextends, hc, hnumber⟩
      rw [if_pos (by omega), Program.wp_bind, Program.wp_lift]
      refine ⟨fun d hd => ?_, fun _ _ => trivial⟩
      rw [Program.wp_bind, Program.wp_lift]
      refine ⟨fun d' hd' => ?_, fun _ _ => trivial⟩
      rw [← bandOf_extends hextends hlist] at hnumber
      have hpicks := (h.extends hextends hlist).cons (by omega) hc hnumber hd hd'
      have hlist' := hextends.keeps hlist
      apply Program.wp_mono (ih (by omega) hlist' hpicks) _ (fun _ _ h => h)
      rintro last s₂ ⟨hextends', hrest⟩
      exact ⟨hextends.trans hextends', hrest⟩

theorem defaultChain_all (hlist : ∀ c ∈ priomap, c < s.next) :
    Program.wp (defaultChain priomap 16 none)
      (fun last s' => s.Extends s' ∧
        ∃ e pick, last = some e ∧ Picks priomap s' 0 e pick)
      (fun _ _ => True) s := by
  rw [defaultChain, Program.wp_bind, Program.wp_get, Program.wp_bind]
  apply Program.wp_mono (requireClass_spec _ s) _ (fun _ _ h => h.elim)
  rintro c s₁ ⟨hextends, hc, hnumber⟩
  simp only [Nat.lt_irrefl, if_false, Program.wp_bind, Program.wp_pure]
  have hpicks : Picks priomap s₁ 15 (.decision (.drClass c)) (fun _ => c) := by
    constructor
    case allocated => exact fun _ _ _ => hc
    case number =>
      intro j hij hj
      obtain rfl : j = 15 := by omega
      rw [bandOf_extends hextends hlist]
      exact hnumber
    case eval => exact fun _ => rfl
  have hlist' := hextends.keeps hlist
  apply Program.wp_mono (defaultChain_picks le_rfl hlist' hpicks) _
    (fun _ _ h => h)
  rintro last s₂ ⟨hextends', hrest⟩
  exact ⟨hextends.trans hextends', hrest⟩

/-- Only the place of the first entry has one of its own. -/
theorem findBand_zero (number : Class → BitVec 32) (i : Nat)
    (priomap : List Class) :
    findBand number i 0 priomap =
      if i = 0 then priomap.head?.map number else none := by
  induction priomap with
  | nil => simp [findBand]
  | cons c rest ih =>
      rw [findBand, ih]
      rcases eq_or_ne i 0 with rfl | hne
      · simp
      · rw [if_neg hne, if_neg (Ne.symm hne), if_neg hne]

end

/-- The expression sends the packet to the class for the band that the dumped
qdisc has for its priority. -/
def SentAsDumped (priomap : List Class) (number : Class → BitVec 32) (d : Data)
    (env : Env) : Prop :=
  ∃ c, (d.outcome env).2 = .decided (.drClass c) ∧
    number c - 1 =
      dumpedBand priomap number (ipTos2prio (tosIndex env.packet))

/-- The list does not change the band of a place in the table. -/
def Unchanged (priomap : List Class) (number : Class → BitVec 32) (i : Nat) :
    Prop :=
  if i = 0 then priomap = []
  else ∀ c, priomap[ipTos2prio i]? = some c →
    number c = BitVec.ofNat 32 (defaultPriomap (ipTos2prio i)) + 1

theorem bandOf_eq_dumpedBand_iff (priomap : List Class)
    (number : Class → BitVec 32) (i : Nat) :
    bandOf priomap number i = dumpedBand priomap number (ipTos2prio i) ↔
      Unchanged priomap number i := by
  rw [bandOf, findBand_zero, dumpedBand, dumpPriomap, List.getElem?_map,
    Unchanged]
  rcases eq_or_ne i 0 with rfl | hne
  · rw [if_pos rfl, if_pos rfl]
    cases priomap with
    | nil => simp [ipTos2prio]
    | cons c rest =>
        have hne : number c ≠ number c - 1 := by bv_omega
        simpa [ipTos2prio] using hne
  · rw [if_neg hne, if_neg hne]
    cases hentry : priomap[ipTos2prio i]? with
    | none => simp
    | some c =>
        have hband : ∀ band : BitVec 32,
            band = number c - 1 ↔ number c = band + 1 := by
          intro band
          constructor <;> intro h <;> bv_omega
        simpa using hband _

theorem unchanged_extends {priomap : List Class} {s s' : ClassList} {i : Nat}
    (h : s.Extends s') (hlist : ∀ c ∈ priomap, c < s.next) :
    Unchanged priomap s'.number i ↔ Unchanged priomap s.number i := by
  rw [Unchanged, Unchanged]
  split
  · rfl
  · apply forall_congr'
    intro c
    apply imp_congr_right
    intro hentry
    rw [h.number c (hlist c (List.mem_of_getElem? hentry))]

/-- A packet that no `if` matches is sent to the class for the band in the
dumped qdisc exactly if the list does not change the band of its place. -/
theorem prioDefaultClass_sent_iff (priomap : List Class) (d d' : Data)
    (s s' : ClassList) (hlist : ∀ c ∈ priomap, c < s.next)
    (hbuilt : prioDefaultClass priomap d s = (.ok d', s')) (env : Env)
    (hmissed : (d.outcome env).2 = .truth false) :
    SentAsDumped priomap s'.number d' env ↔
      Unchanged priomap s.number (tosIndex env.packet) := by
  have hwp : Program.wp (prioDefaultClass priomap d)
      (fun d' s' => s.Extends s' ∧ ∃ e pick, Picks priomap s' 0 e pick ∧
        opBinary .logicalOr d e = .ok d') (fun _ _ => True) s := by
    rw [prioDefaultClass, Program.wp_bind]
    apply Program.wp_mono (defaultChain_all hlist) _ (fun _ _ h => h)
    rintro last s₁ ⟨hextends, e, pick, rfl, hpicks⟩
    rw [Program.wp_lift]
    exact ⟨fun d' hd' => ⟨hextends, e, pick, hpicks, hd'⟩, fun _ _ => trivial⟩
  obtain ⟨hextends, e, pick, hpicks, hd'⟩ := Program.wp_ok hbuilt hwp
  have hplace := tosIndex_lt env.packet
  have hdecided : (d'.outcome env).2 =
      .decided (.drClass (pick (tosIndex env.packet))) := by
    have heval := hpicks.eval env
    rw [if_pos (Nat.zero_le _)] at heval
    rw [Data.outcome, eval_orEval hd', heval]
    exact ShortCircuit.Eval.or_decide hmissed _
  have hnumber := hpicks.number _ (Nat.zero_le _) hplace
  rw [← unchanged_extends hextends hlist, ← bandOf_eq_dumpedBand_iff,
    SentAsDumped]
  have hband : s'.number (pick (tosIndex env.packet)) - 1 =
      bandOf priomap s'.number (tosIndex env.packet) := by bv_omega
  rw [← hband]
  constructor
  · rintro ⟨c, hc, heq⟩
    rw [hdecided] at hc
    cases hc
    exact heq
  · exact fun heq => ⟨_, hdecided, heq⟩

/-! ## A list with one entry -/

/-- Three classes; the highest priority goes to the second one. -/
def threeBands : Qdisc where
  root := .class 0 .null .null (.class 1 .null .null (.class 2 .null .null
    .null))
  filters _ := false
  bands := none
  priomap := some [.toClass 1]
  checkQdisc _ := .ok ()
  checkFilters := .ok ()

def threeClassList : ClassList where
  classes := [0, 1, 2]
  number c := BitVec.ofNat 32 (c + 1)
  next := 3
  allocated := by decide

/-- A packet with a TOS of zero and no policing. -/
def zeroPacket : Env := .steady (fun _ _ => false) fun _ => true

theorem threeBands_sent_iff :
    ∃ d' s', SentAsDumped [1] (ClassList.number s') d' zeroPacket ↔
      Unchanged [1] threeClassList.number (tosIndex zeroPacket.packet) :=
  ⟨_, _, prioDefaultClass_sent_iff [1] (.unum 0) _ threeClassList _ (by decide)
    rfl zeroPacket rfl⟩

/-- The check accepts the qdisc, but the packet is sent to the class behind the
one in the list. -/
theorem threeBands_sent_elsewhere :
    (prioCheck threeBands 10 ⟨threeClassList.number, 0⟩).1 = .ok 3 ∧
      ∃ d' s', prioDefaultClass [1] (.unum 0) threeClassList = (.ok d', s') ∧
        ¬SentAsDumped [1] s'.number d' zeroPacket := by
  refine ⟨rfl, _, _, rfl, ?_⟩
  rintro ⟨c, hc, hband⟩
  have hthird : Result.decided (Decision.drClass c) =
      Result.decided (Decision.drClass 2) := hc.symm
  cases hthird
  exact absurd hband (by decide)

end Tcng.Prio
