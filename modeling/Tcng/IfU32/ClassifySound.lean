import Tcng.IfU32.Classify
import Tcng.IfU32.Stack

/-! The rules of an expression decide as the expression does. -/

namespace Tcng.IfU32

open Program ShortCircuit

variable {d a b c : Data} {t : DataType}

/-! ## Expressions -/

/-- What an outcome means to the caller of the classifier. -/
def verdictOf : Result Decision → Option Decision
  | .truth _ | .decided .drContinue => none
  | .decided dec => some dec

/-- There is one field root; nothing is counted. -/
def Verdict (conforms : List Bucket → Bucket → Bool) (d : Data)
    (packet : Nat → Bool) : Option Decision :=
  verdictOf (d.outcome ⟨fun _ => wrapped packet, conforms⟩).2

/-- A constant, or an access compared with a constant. -/
inductive PlainTest : Data → Prop
  | unum (n : BitVec 32) : PlainTest (.unum n)
  | left {t : DataType} {constant var c : Data} {offset bits : BitVec 32}
      {mask : Nat} (h : EqTest constant var offset bits mask) :
      PlainTest (.op .eq t constant var c)
  | right {t : DataType} {constant var c : Data} {offset bits : BitVec 32}
      {mask : Nat} (h : EqTest constant var offset bits mask) :
      PlainTest (.op .eq t var constant c)

/-- Alternatives of tests that end in a class, in drop or in alternatives. -/
inductive Ruled : Data → Prop
  | toClass (c : Class) : Ruled (.decision (.drClass c))
  | drop : Ruled (.decision .drDrop)
  | and {t : DataType} {a b c : Data} (ha : PlainTest a) (hb : Ruled b) :
      Ruled (.op .logicalAnd t a b c)
  | or {t : DataType} {a b c : Data} (ha : Ruled a)
      (hop : a.isOp = true) (hchain : isLogicalOr a = false) (hb : Ruled b) :
      Ruled (.op .logicalOr t a b c)

/-- What nothing decides may be left to the next classifier. -/
inductive RuledToEnd : Data → Prop
  | ruled {d : Data} (h : Ruled d) : RuledToEnd d
  | toNext : RuledToEnd (.decision .drContinue)
  | or {t : DataType} {a b c : Data} (ha : Ruled a)
      (hop : a.isOp = true) (hchain : isLogicalOr a = false)
      (hb : RuledToEnd b) : RuledToEnd (.op .logicalOr t a b c)

theorem EqTest.holds_iff {constant var : Data} {offset bits : BitVec 32}
    {mask : Nat} (h : EqTest constant var offset bits mask)
    (packet : Nat → Bool) :
    constant.num (fun _ => wrapped packet) .start =
        var.num (fun _ => wrapped packet) .start ↔
      FieldIs offset bits mask constant.convertIpv6.toNat packet := by
  obtain ⟨root, haccess⟩ := h.access
  have hvar : var.num (fun _ => wrapped packet) .start =
      readBits (wrapped packet) (8 * offset.toNat) bits.toNat &&& mask := by
    rw [haccess.num, Base.start, Nat.zero_add]
  rw [← Data.convertIpv6_toNat h.isConstant, hvar, FieldIs, eq_comm]

/-! ## Tests -/

theorem GoodKeys.nil : GoodKeys [] :=
  ⟨fun _ hk => absurd hk List.not_mem_nil,
    fun _ _ _ hk => absurd hk List.not_mem_nil⟩

/-- All that is printed for the keys holds. -/
abbrev KeysMatch (keys : List Key) (packet : Nat → Bool) : Prop :=
  ∀ m ∈ printedTests keys, m.Holds packet

theorem reading_holds {packet : Nat → Bool} {inProfile : Police → Bool}
    {line : Line} {keys : List Key} (h : line.tests = printedTests keys) :
    (reading packet inProfile).holds line = true ↔ KeysMatch keys packet := by
  rw [KeysMatch, ← h]
  exact decide_eq_true_iff

/-- After a test, the keys match what passes it, or nothing can. -/
structure Tested (test : (Nat → Bool) → Bool) (s : State) (useful : Bool)
    (t : State) : Prop where
  same : ∃ isMeta keys, isMeta ≠ .yes ∧ t = { s with isMeta, keys }
  good : useful = true → GoodKeys t.keys
  matches_ : useful = true → ∀ packet,
    KeysMatch t.keys packet ↔ KeysMatch s.keys packet ∧ test packet = true
  never : useful = false → ∀ packet, KeysMatch s.keys packet →
    test packet = false

instance (offset bits : BitVec 32) (mask value : Nat) (packet : Nat → Bool) :
    Decidable (FieldIs offset bits mask value packet) :=
  inferInstanceAs (Decidable (_ = _))

theorem EqTest.tested {constant var : Data} {offset bits : BitVec 32}
    {mask : Nat} (h : EqTest constant var offset bits mask) {s : State}
    (hmeta : s.isMeta ≠ .yes) (hkeys : GoodKeys s.keys) :
    wp (do
        let s ← get
        if s.isMeta = .yes then throw invalidCombination
        else do
          modify fun s => { s with isMeta := .no }
          let (useful, keys) ← lift (dumpEq constant var s.keys)
          modify fun s => { s with keys }
          pure useful)
      (Tested (fun packet =>
        FieldIs offset bits mask constant.convertIpv6.toNat packet) s)
      (fun e _ => e = tooManyKeys) s := by
  rw [wp_bind, wp_get, if_neg hmeta, wp_bind, wp_modify, wp_bind, wp_lift]
  have hspec := dumpEq_good hkeys h
  refine ⟨fun result hresult => ?_, fun e he => hspec.of_error he⟩
  obtain ⟨useful, keys⟩ := result
  obtain ⟨htrue, hfalse⟩ := hspec.of_ok hresult
  refine ⟨⟨.no, keys, IsMeta.noConfusion, rfl⟩, fun hu => (htrue hu).1,
    fun hu packet => ?_, fun hu packet hmatch => ?_⟩
  · obtain ⟨hgood, hmatches⟩ := htrue hu
    rw [decide_eq_true_iff, KeysMatch, hgood.printed_iff, KeysMatch,
      hkeys.printed_iff]
    exact hmatches packet
  · rw [decide_eq_false_iff_not]
    exact hfalse hu packet ((hkeys.printed_iff packet).mp hmatch)

theorem isConstant_of {m : Data} (h : m.isConstant = true) :
    isConstant m = true := by
  cases m with
  | unum | ipv6 => rfl
  | _ => cases h

theorem eval_comparison (env : Env) (base : Base) :
    (Data.op .eq t a b c).eval env base =
      .truth (decide (a.num env.packet base = b.num env.packet base)) := by
  have hnum : (Data.op .eq t a b c).num env.packet base =
      (a.num env.packet base == b.num env.packet base).toNat := rfl
  simp only [Data.eval, hnum]
  cases hsame : a.num env.packet base == b.num env.packet base with
  | true => rw [beq_iff_eq.mp hsame]; simp
  | false => simp [beq_eq_false_iff_ne.mp hsame]

/-- A test behind the field root 0. -/
theorem dumpOther_eq (cfg : Config) (h : Handle) (atEnd : Bool) :
    dumpOther cfg (.op .eq t a b c) h atEnd 0 = dumpPacketEq a b := by
  rw [dumpOther, if_neg (by decide), if_neg (not_not_intro rfl)]

theorem PlainTest.spec (ha : PlainTest a)
    (conforms : List Bucket → Bucket → Bool) :
    ∃ test : (Nat → Bool) → Bool,
      (∀ packet, a.eval ⟨fun _ => wrapped packet, conforms⟩ .start =
        .truth (test packet)) ∧
      ∀ (cfg : Config) (h : Handle) (atEnd : Bool) {s : State},
        s.isMeta ≠ .yes → GoodKeys s.keys →
        wp (dumpOther cfg a h atEnd 0) (Tested test s)
          (fun e _ => e = tooManyKeys) s := by
  cases ha with
  | unum n =>
      refine ⟨fun _ => decide (n ≠ 0), fun _ => Data.eval_unum _ _ n,
        fun cfg h atEnd s hmeta hkeys => ?_⟩
      rw [dumpOther, wp_pure]
      refine ⟨⟨s.isMeta, s.keys, hmeta, rfl⟩, fun _ => hkeys, fun hu _ => ?_,
        fun hu _ _ => hu⟩
      rw [hu, and_iff_left rfl]
  | @left t constant var c offset bits mask htest =>
      refine ⟨fun packet => FieldIs offset bits mask constant.convertIpv6.toNat
        packet, fun packet => ?_, fun cfg h atEnd s hmeta hkeys => ?_⟩
      · rw [eval_comparison]
        exact congrArg Eval.truth
          (decide_eq_decide.mpr (htest.holds_iff packet))
      · rw [dumpOther_eq]
        simp only [dumpPacketEq, isConstant_of htest.isConstant, if_true]
        exact htest.tested hmeta hkeys
  | @right t constant var c offset bits mask htest =>
      refine ⟨fun packet => FieldIs offset bits mask constant.convertIpv6.toNat
        packet, fun packet => ?_, fun cfg h atEnd s hmeta hkeys => ?_⟩
      · rw [eval_comparison]
        exact congrArg Eval.truth
          (decide_eq_decide.mpr (eq_comm.trans (htest.holds_iff packet)))
      · obtain ⟨root, haccess⟩ := htest.access
        have hvar : isConstant var = false := by
          rw [isConstant, haccess.isOp, Bool.not_true, Bool.and_false]
        rw [dumpOther_eq]
        simp only [dumpPacketEq, hvar, isConstant_of htest.isConstant, if_true,
          Bool.false_eq_true, if_false]
        exact htest.tested hmeta hkeys

/-! ## What expressions decide -/

section

variable {conforms : List Bucket → Bucket → Bool}

/-- Alternatives are exhausted or a class or drop has been decided. -/
theorem Ruled.settled (hd : Ruled d) (packet : Nat → Bool) :
    d.eval ⟨fun _ => wrapped packet, conforms⟩ .start = .truth false ∨
      ∃ dec, dec ≠ .drContinue ∧
        d.eval ⟨fun _ => wrapped packet, conforms⟩ .start = .decide dec := by
  induction hd with
  | toClass c => exact .inr ⟨_, Decision.noConfusion, rfl⟩
  | drop => exact .inr ⟨_, Decision.noConfusion, rfl⟩
  | and ha hb ih =>
      obtain ⟨test, heval, -⟩ := ha.spec conforms
      rw [Data.eval_logicalAnd, heval]
      cases test packet with
      | true => exact ih
      | false => exact .inl rfl
  | or ha hop hchain hb iha ihb =>
      rw [Data.eval_logicalOr]
      obtain hfalse | ⟨dec, hne, hdec⟩ := iha
      · rw [hfalse]
        exact ihb
      · rw [hdec]
        exact .inr ⟨dec, hne, rfl⟩

theorem verdict_and {test : (Nat → Bool) → Bool} {packet : Nat → Bool}
    (ha : a.eval ⟨fun _ => wrapped packet, conforms⟩ .start =
      .truth (test packet)) :
    Verdict conforms (.op .logicalAnd t a b c) packet =
      if test packet then Verdict conforms b packet else none := by
  rw [Verdict, Data.outcome, Data.eval_logicalAnd, ha]
  cases test packet <;> rfl

/-- An alternative counts if those before it decide nothing. -/
theorem verdict_or (ha : Ruled a) (packet : Nat → Bool) :
    Verdict conforms (.op .logicalOr t a b c) packet =
      (Verdict conforms a packet).or (Verdict conforms b packet) := by
  rw [Verdict, Verdict, Data.outcome, Data.outcome, Data.eval_logicalOr]
  obtain hfalse | ⟨dec, hne, hdec⟩ := ha.settled packet
  · rw [hfalse]
    rfl
  · rw [hdec]
    cases dec with
    | drContinue => exact absurd rfl hne
    | _ => rfl

end

/-! ## Tables -/

/-- How many tables are below that of `d`, one after the other or in all. -/
def linksBelow (combine : Nat → Nat → Nat) : Data → Nat
  | .op .logicalOr _ a b _ =>
      combine (linksBelow combine a) (linksBelow combine b)
  | .op .logicalAnd _ _ b _ =>
      linksBelow combine b + if isLogicalOr b then 1 else 0
  | _ => 0

/-- As far as one path of links may go. -/
def nesting (d : Data) : Nat := linksBelow max d

def tableCount (d : Data) : Nat := linksBelow (· + ·) d

/-- There is room for so many tables. -/
structure Room (table : Handle) (tables : Nat) (s : State) : Prop where
  aligned : s.handle.toNat % 2 ^ 20 = 0
  left : s.handle.toNat + 2 ^ 20 * tables < u32Root.toNat
  table : table = u32Root ∨ table.toNat ≤ s.handle.toNat
  lastMeta : s.lastMeta ≠ .yes

/-- Lines for a table, and for tables made meanwhile. -/
structure Emitted (table : Handle) (depth tables : Nat)
    (verdict : (Nat → Bool) → Option Decision) (s t : State) : Prop where
  ruleStack : t.ruleStack = s.ruleStack
  aligned : t.handle.toNat % 2 ^ 20 = 0
  le : s.handle.toNat ≤ t.handle.toNat
  bound : t.handle.toNat ≤ s.handle.toNat + 2 ^ 20 * tables
  place : SamePlace s t
  lines : ∃ lines, t.output = s.output ++ lines ∧
    (∀ line ∈ lines, line.table.isSome →
      line.PlainAt s.protocolId s.prioOffset) ∧ ∀ packet inProfile,
    (reading packet inProfile).Block
      (fun u => s.handle.toNat < u.toNat ∧ u.toNat ≤ t.handle.toNat) table lines
      depth (verdict packet)

section

variable {table : Handle} {depth depth' tables tables' : Nat}
  {verdict verdict' : (Nat → Bool) → Option Decision} {s t u : State}

theorem Room.foreign (h : Room table tables s)
    (hbound : t.handle.toNat ≤ s.handle.toNat + 2 ^ 20 * tables) :
    ¬(s.handle.toNat < table.toNat ∧ table.toNat ≤ t.handle.toNat) := by
  have hleft := h.left
  rcases h.table with rfl | htable <;> omega

/-- Nothing is printed. -/
theorem Emitted.nothing (h : Room table tables s)
    (hstack : t.ruleStack = s.ruleStack) (hhandle : t.handle = s.handle)
    (houtput : t.output = s.output) (hplace : SamePlace s t)
    (hverdict : ∀ packet, verdict packet = none) :
    Emitted table 0 0 verdict s t where
  ruleStack := hstack
  aligned := hhandle ▸ h.aligned
  le := by rw [hhandle]
  bound := by rw [hhandle, Nat.mul_zero, Nat.add_zero]
  place := hplace
  lines := by
    refine ⟨[], by rw [houtput, List.append_nil],
      fun _ hline => absurd hline List.not_mem_nil, fun packet inProfile => ?_⟩
    rw [hverdict]
    refine .nil (h.foreign ?_)
    rw [hhandle]
    exact Nat.le_add_right _ _

/-- A rule that decides. -/
theorem Emitted.decided {dec : Decision} (hroom : Room table tables s)
    (h : Decided dec s t) (htable : s.currHandle.htid = table) :
    Emitted table 0 0
      (fun packet => if KeysMatch s.keys packet then some dec else none) s t
    where
  ruleStack := h.ruleStack
  aligned := h.handle ▸ hroom.aligned
  le := by rw [h.handle]
  bound := by rw [h.handle, Nat.mul_zero, Nat.add_zero]
  place := h.place
  lines := by
    obtain ⟨line, hline, hplain, houtput⟩ := h.line
    refine ⟨[line], houtput, fun other hother _ => ?_,
      fun packet inProfile => ?_⟩
    · rw [List.mem_singleton.mp hother]
      exact hplain
    have hforeign : ¬(s.handle.toNat < table.toNat ∧
        table.toNat ≤ t.handle.toNat) := by
      apply hroom.foreign
      rw [h.handle]
      exact Nat.le_add_right _ _
    have hdecides : (if (reading packet inProfile).holds line = true then
        (reading packet inProfile).verdict line else none) =
          if KeysMatch s.keys packet then some dec else none :=
      if_congr (reading_holds hline.tests) (hline.verdict inProfile) rfl
    rw [← hdecides]
    exact .rule hforeign (hline.table.trans (congrArg some htable)) hline.link

theorem Emitted.append (h : Emitted table depth tables verdict s t)
    (h' : Emitted table depth' tables' verdict' t u)
    (hroom : Room table (tables + tables') s) :
    Emitted table (max depth depth') (tables + tables')
      (fun packet => (verdict packet).or (verdict' packet)) s u where
  ruleStack := h'.ruleStack.trans h.ruleStack
  aligned := h'.aligned
  le := Nat.le_trans h.le h'.le
  bound := by
    have hfirst := h.bound
    have hsecond := h'.bound
    omega
  place := h.place.trans h'.place
  lines := by
    obtain ⟨lines, houtput, hplain, hblock⟩ := h.lines
    obtain ⟨lines', houtput', hplain', hblock'⟩ := h'.lines
    refine ⟨lines ++ lines', ?_, fun line hline htable => ?_,
      fun packet inProfile => ?_⟩
    · rw [houtput', houtput, List.append_assoc]
    · rcases List.mem_append.mp hline with hline | hline
      · exact hplain line hline htable
      · exact h.place.plainAt (hplain' line hline htable)
    · refine ((hblock packet inProfile).append (hblock' packet inProfile)
        fun w hw hw' => ?_).mono (Nat.le_refl _) (fun w hw => ?_) ?_
      · omega
      · have := h.le
        have := h'.le
        omega
      · have hfirst := h.bound
        have hsecond := h'.bound
        exact hroom.foreign (by omega)

theorem Emitted.mono (h : Emitted table depth tables verdict s t)
    (hdepth : depth ≤ depth') (htables : tables ≤ tables') :
    Emitted table depth' tables' verdict s t where
  ruleStack := h.ruleStack
  aligned := h.aligned
  le := h.le
  bound := by
    have := h.bound
    omega
  place := h.place
  lines := by
    obtain ⟨lines, houtput, hplain, hblock⟩ := h.lines
    refine ⟨lines, houtput, hplain, fun packet inProfile => ?_⟩
    have hlines := hblock packet inProfile
    exact hlines.mono hdepth (fun _ hu => hu) hlines.foreign

end

/-! ## Links -/

/-- Tables may have been announced. -/
structure Announced (s t : State) : Prop where
  isMeta : t.isMeta ≠ .yes
  keys : t.keys = s.keys
  currHandle : t.currHandle = s.currHandle
  ruleStack : t.ruleStack = s.ruleStack
  handle : t.handle = s.handle
  place : SamePlace s t
  output : ∃ lines, (∀ line ∈ lines, line.table = none) ∧
    t.output = s.output ++ lines

theorem cachedHash_announces {s : State} (hmeta : s.isMeta ≠ .yes)
    (hlast : s.lastMeta ≠ .yes) :
    wp cachedHash (fun _ t => Announced s t) (fun _ _ => False) s := by
  unfold cachedHash
  rw [wp_bind, wp_get, if_neg hmeta, wp_ite]
  refine ⟨fun _ => ?_, fun _ => ?_⟩
  · rw [wp_bind, wp, syncMeta_run hmeta hlast]
    refine ⟨IsMeta.noConfusion, rfl, rfl, rfl, rfl,
      ⟨rfl, rfl, IsMeta.noConfusion⟩, [_], fun line hline => ?_, rfl⟩
    rw [List.mem_singleton.mp hline]
    rfl
  · refine ⟨hmeta, rfl, rfl, rfl, rfl, ⟨rfl, rfl, hlast⟩, [],
      fun _ h => absurd h List.not_mem_nil, ?_⟩
    rw [List.append_nil]

/-- The line of the rule on top of the stack gets a link. -/
structure LineLinked (s : State) (prev : List Rule) (line : Line)
    (next : Handle) (t : State) : Prop where
  ruleStack : ∃ rule, t.ruleStack = rule :: prev
  handle : t.handle = next
  place : SamePlace s t
  output : t.output = s.output ++ [{ line with link := some next.htid }]

theorem dumpLinkRule_links {s : State} {rule : Rule} {prev : List Rule}
    {line : Line} (hstack : s.ruleStack = rule :: prev)
    (hline : s.line = some line) (hlast : s.lastMeta ≠ .yes) :
    wp dumpLinkRule (fun next t => next = s.handle + 0x100000 ∧
      LineLinked s prev line next t) (fun _ _ => False) s := by
  unfold dumpLinkRule step changeRule tcMore nextHash
  simp only [wp_bind, wp_get, wp_modify, wp_newHandle, wp_tcNl, wp_pure]
  generalize s.handle + 0x100000 = next
  refine ⟨trivial, ⟨{ rule with link := next }, ?_⟩, rfl, ⟨rfl, rfl, hlast⟩, ?_⟩
  · rw [hstack]
    rfl
  · rw [hline]
    rfl

/-- The rule for the keys so far leads to the next table. -/
structure LinkPrinted (s : State) (next : Handle) (t : State) : Prop where
  ruleStack : ∃ rule, t.ruleStack = rule :: s.ruleStack
  handle : t.handle = next
  place : SamePlace s t
  output : ∃ lines line, (∀ other ∈ lines, other.table = none) ∧
    line.table = some s.currHandle.htid ∧ line.tests = printedTests s.keys ∧
    line.link = some next.htid ∧ line.PlainAt s.protocolId s.prioOffset ∧
    t.output = s.output ++ (lines ++ [line])

theorem wp_linkPrinted {α : Type} {s : State} {x : Handle → Emit α}
    {Q : α → State → Prop} {E : Error → State → Prop}
    (hmeta : s.isMeta ≠ .yes) (hlast : s.lastMeta ≠ .yes)
    (hx : ∀ t, LinkPrinted s (s.handle + 0x100000) t →
      wp (x (s.handle + 0x100000)) Q E t) :
    wp (do
      cachedHash
      dumpMatch
      let next ← dumpLinkRule
      x next) Q E s := by
  rw [wp_bind]
  apply wp_mono (cachedHash_announces hmeta hlast) _ fun _ _ h => h.elim
  intro _ t ht
  obtain ⟨rule, line, hline, hplain, hrun⟩ :=
    dumpMatch_run ht.isMeta ht.place.lastMeta
  obtain ⟨lines, hlines, houtput⟩ := ht.output
  rw [wp_bind, wp, hrun]
  dsimp only
  rw [wp_bind]
  apply wp_mono (dumpLinkRule_links rfl rfl IsMeta.noConfusion) _
    fun _ _ h => h.elim
  intro next u hu
  obtain ⟨hnext, hlinked⟩ := hu
  have heq : next = s.handle + 0x100000 := by rw [hnext, ← ht.handle]
  obtain ⟨rule', hstack⟩ := hlinked.ruleStack
  rw [heq]
  apply hx
  rw [← heq]
  constructor
  case ruleStack => exact ⟨rule', by rw [hstack, ht.ruleStack]⟩
  case handle => exact hlinked.handle
  case place =>
    have hplace := hlinked.place
    exact ht.place.trans ⟨hplace.protocol, hplace.prioOffset, hplace.lastMeta⟩
  case output =>
    refine ⟨lines, { line with link := some next.htid }, hlines,
      ?_, ?_, rfl, ?_, ?_⟩
    · rw [← ht.currHandle]
      exact hline.table
    · rw [← ht.keys]
      exact hline.tests
    · apply ht.place.plainAt
      exact ⟨hplain.protocol, hplain.prioOffset, hplain.plus, hplain.offsetAt⟩
    · rw [hlinked.output, ← List.append_assoc, ← houtput]

theorem Emitted.behind {table next : Handle} {depth tables : Nat}
    {verdict : (Nat → Bool) → Option Decision} {s t u : State}
    (h : LinkPrinted s next t) (h' : Emitted next depth tables verdict t u)
    (hnext : next.toNat = s.handle.toNat + 2 ^ 20)
    (hroom : Room table (tables + 1) s) (htable : s.currHandle.htid = table) :
    Emitted table (depth + 1) (tables + 1)
      (fun packet => if KeysMatch s.keys packet then verdict packet else none)
      s { u with ruleStack := s.ruleStack } where
  ruleStack := rfl
  aligned := h'.aligned
  le := by
    have hle := h'.le
    rw [h.handle] at hle
    exact Nat.le_trans (by omega) hle
  bound := by
    have hbound := h'.bound
    rw [h.handle] at hbound
    refine Nat.le_trans hbound ?_
    omega
  place := by
    have hplace := h.place.trans h'.place
    exact ⟨hplace.protocol, hplace.prioOffset, hplace.lastMeta⟩
  lines := by
    obtain ⟨lines, line, hlines, hplace, htests, hlink, hplain, houtput⟩ :=
      h.output
    obtain ⟨lines', houtput', hplain', hblock⟩ := h'.lines
    refine ⟨lines ++ line :: lines', ?_, fun other hother hsome => ?_,
      fun packet inProfile => ?_⟩
    · change u.output = _
      rw [houtput', houtput, List.append_assoc, List.append_assoc,
        List.singleton_append]
    · rcases List.mem_append.mp hother with hother | hother
      · rw [hlines other hother] at hsome
        cases hsome
      · rcases List.mem_cons.mp hother with rfl | hother
        · exact hplain
        · exact h.place.plainAt (hplain' other hother hsome)
    have haligned := hroom.aligned
    have hbound := h'.bound
    have hle := h'.le
    rw [h.handle] at hbound hle
    have hself : next.htid = next := Handle.htid_eq_self (by omega)
    have hforeign : ¬(s.handle.toNat < table.toNat ∧
        table.toNat ≤ u.handle.toNat) := hroom.foreign (by omega)
    have hne : next ≠ table := by
      intro heq
      apply hforeign
      rw [← heq]
      omega
    have hdecides : (if (reading packet inProfile).holds line = true then
        verdict packet else none) =
          if KeysMatch s.keys packet then verdict packet else none :=
      if_congr (reading_holds htests) rfl rfl
    rw [← hdecides]
    have hrules := (hblock packet inProfile).link
      (hplace.trans (congrArg some htable)) (hlink.trans (congrArg some hself))
      (fun hown => ?_) hne
    · refine (hrules.mono (Nat.le_refl _) (fun w hw => ?_) hforeign).prepend
        hlines
      rw [h.handle] at hw
      rcases hw with hw | rfl
      · exact ⟨by omega, hw.2⟩
      · exact ⟨by omega, hle⟩
    · rw [h.handle] at hown
      exact hforeign ⟨by omega, hown.2⟩

/-! ## Printing -/

theorem PlainTest.actionTree (ha : PlainTest a) : actionTree a = false := by
  cases ha <;> rfl

/-- Actions are only printed where there is nothing left to test. -/
theorem Ruled.actionTree (hd : Ruled d) (hop : d.isOp = true) :
    actionTree d = false := by
  induction hd with
  | toClass | drop => cases hop
  | and ha hb ih =>
      rw [Tcng.actionTree, ha.actionTree, Bool.false_and]
  | or ha hopa hchain hb iha ihb =>
      rw [Tcng.actionTree, iha hopa, Bool.false_and]

theorem PlainTest.actionTree_and (ha : PlainTest a) :
    Tcng.actionTree (.op .logicalAnd t a b c) = false := by
  rw [Tcng.actionTree, ha.actionTree, Bool.false_and]

theorem Ruled.actionTree_or (ha : Ruled a) (hop : a.isOp = true) :
    Tcng.actionTree (.op .logicalOr t a b c) = false := by
  rw [Tcng.actionTree, ha.actionTree hop, Bool.false_and]

section

variable (cfg : Config)

theorem dumpAction_none (h : actionTree d = false) (atEnd : Bool) :
    dumpAction cfg d atEnd = pure false := by
  unfold dumpAction
  rw [h]
  rfl

theorem dumpAnd_eq (h : isLogicalOr d = false) (currHandle : Handle)
    (atEnd : Bool) :
    dumpAnd cfg d currHandle atEnd 0 =
      dumpAndLoop cfg d currHandle atEnd 0 := by
  rw [dumpAnd, dif_neg]
  rw [h]
  exact Bool.false_ne_true

theorem KeysMatch.nil (packet : Nat → Bool) : KeysMatch [] packet :=
  (printedTests_hold packet []).mpr fun _ hk => absurd hk List.not_mem_nil

theorem dumpOther_or (currHandle : Handle) (atEnd : Bool) :
    dumpOther cfg (.op .logicalOr t a b c) currHandle atEnd 0 = (do
      cachedHash
      dumpMatch
      let next ← dumpLinkRule
      let _ ← dumpOr cfg (.op .logicalOr t a b c) next atEnd 0 false
      popRule
      pure false) := by
  rw [dumpOther]

theorem dumpAndLoop_and (ha : PlainTest a) (currHandle : Handle)
    (atEnd : Bool) :
    dumpAndLoop cfg (.op .logicalAnd t a b c) currHandle atEnd 0 = (do
      if ← dumpOther cfg a currHandle atEnd 0 then
        dumpAndLoop cfg b currHandle atEnd 0
      else pure false) := by
  have hand : actionTree (.op .logicalAnd t a b c) = false := by
    rw [actionTree, ha.actionTree, Bool.false_and]
  rw [dumpAndLoop, dumpAction_none cfg ha.actionTree_and,
    dumpAction_none cfg ha.actionTree]
  · cases ha <;> rfl
  · intro _ _ _ _ hoffset
    cases ha <;> cases hoffset

/-! ## Rules in their tables -/

variable (conforms : List Bucket → Bucket → Bool)

/-- The tables of what remains of a conjunction, where alternatives go into
one of their own. -/
def linksWithin (combine : Nat → Nat → Nat) (d : Data) : Nat :=
  linksBelow combine d + if isLogicalOr d then 1 else 0

theorem linksWithin_and (combine : Nat → Nat → Nat) :
    linksWithin combine (.op .logicalAnd t a b c) = linksWithin combine b := rfl

theorem linksWithin_or (combine : Nat → Nat → Nat) :
    linksWithin combine (.op .logicalOr t a b c) =
      linksBelow combine (.op .logicalOr t a b c) + 1 := rfl

/-- Lines for what remains of a conjunction. -/
def AndPrints (d : Data) : Prop :=
  ∀ (currHandle : Handle) (atEnd : Bool) {table : Handle} {s : State},
    s.isMeta ≠ .yes → GoodKeys s.keys → s.currHandle.htid = table →
    Room table (linksWithin (· + ·) d) s →
    wp (dumpAndLoop cfg d currHandle atEnd 0)
      (fun _ t => Emitted table (linksWithin max d) (linksWithin (· + ·) d)
        (fun packet =>
          if KeysMatch s.keys packet then Verdict conforms d packet else none)
        s t)
      (fun e _ => e = tooManyKeys) s

/-- Lines for the alternatives in a table. -/
def OrPrints (d : Data) : Prop :=
  ∀ (currHandle : Handle) (atEnd useful : Bool) {table : Handle} {s : State},
    currHandle.htid = table → currHandle.key.toNat + d.size < 2 ^ 20 →
    Room table (tableCount d) s →
    wp (dumpOr cfg d currHandle atEnd 0 useful)
      (fun _ t => Emitted table (nesting d) (tableCount d) (Verdict conforms d)
        s t)
      (fun e _ => e = tooManyKeys) s

variable {cfg conforms}

/-- The state in which the tests of an alternative begin. -/
def State.begun (s : State) (currHandle : Handle) : State :=
  { s with currHandle, keys := [], isMeta := .undecided }

section

variable {table currHandle : Handle} {depth tables tables' : Nat}
  {verdict : (Nat → Bool) → Option Decision} {isMeta : IsMeta}
  {keys : List Key} {s t : State}

/-- Where lines are put does not depend on the tests of an alternative. -/
theorem Emitted.of_tests (h : Emitted table depth tables verdict
    { s with currHandle, keys, isMeta } t) :
    Emitted table depth tables verdict s t := by
  have hplace := h.place
  exact ⟨h.ruleStack, h.aligned, h.le, h.bound,
    ⟨hplace.protocol, hplace.prioOffset, hplace.lastMeta⟩, h.lines⟩

/-- Without keys nothing restricts what is decided. -/
theorem Emitted.of_begun (h : Emitted table depth tables (fun packet =>
      if KeysMatch (s.begun currHandle).keys packet then verdict packet
      else none) (s.begun currHandle) t) :
    Emitted table depth tables verdict s t := by
  have hverdict : (fun packet =>
      if KeysMatch (s.begun currHandle).keys packet then verdict packet
      else none) = verdict :=
    funext fun packet => if_pos (KeysMatch.nil packet)
  rw [hverdict] at h
  exact .of_tests h

theorem Room.tests (h : Room table tables s) :
    Room table tables { s with currHandle, keys, isMeta } :=
  ⟨h.aligned, h.left, h.table, h.lastMeta⟩

theorem Room.mono (h : Room table tables s) (htables : tables' ≤ tables) :
    Room table tables' s := by
  refine ⟨h.aligned, Nat.lt_of_le_of_lt ?_ h.left, h.table, h.lastMeta⟩
  exact Nat.add_le_add_left (Nat.mul_le_mul_left _ htables) _

theorem Room.next (h : Room table (tables + 1) s) :
    (s.handle + 0x100000).toNat = s.handle.toNat + 2 ^ 20 := by
  apply Handle.next_toNat
  refine Nat.lt_of_le_of_lt ?_ h.left
  rw [Nat.mul_succ]
  exact Nat.add_le_add_left (Nat.le_add_left _ _) _

/-- Every alternative has a handle of its own in the table. -/
theorem Handle.htid_begun (htable : currHandle.htid = table)
    (hkey : currHandle.key.toNat + d.size < 2 ^ 20) :
    (currHandle + 1).htid = table := by
  have hpos : 0 < d.size := by
    cases d <;> simp only [Data.size] <;> omega
  exact (Handle.htid_succ (by omega)).1.trans htable

/-- What is one action is printed where the tests would begin. -/
theorem wp_dumpOr_action {Q : Bool → State → Prop} {E : Error → State → Prop}
    {atEnd useful : Bool} (haction : wp (dumpAction cfg d atEnd)
      (fun done t => done = true ∧ Q true t) E (s.begun (currHandle + 1))) :
    wp (dumpOr cfg d currHandle atEnd 0 useful) Q E s := by
  unfold dumpOr
  dsimp only
  rw [wp_bind, beginMatch, wp_modify, wp_bind]
  apply wp_mono haction _ fun _ _ h => h
  intro done t hdone
  obtain ⟨rfl, hdone⟩ := hdone
  exact hdone

end

/-- A decision is one rule. -/
theorem prints_decision {dec : Decision}
    (hdump : ∀ (atEnd : Bool) (s : State), s.isMeta ≠ .yes →
      s.lastMeta ≠ .yes → wp (dumpAction cfg (.decision dec) atEnd)
        (fun done t => done = true ∧ Decided dec s t) (fun _ _ => False) s)
    (hverdict : ∀ packet,
      Verdict conforms (.decision dec) packet = some dec) :
    OrPrints cfg conforms (.decision dec) ∧
      AndPrints cfg conforms (.decision dec) := by
  have hverdict' : Verdict conforms (.decision dec) = fun _ => some dec :=
    funext hverdict
  constructor
  · intro currHandle atEnd useful table s htable hkey hroom
    apply wp_dumpOr_action
    apply wp_mono (hdump atEnd (s.begun (currHandle + 1)) IsMeta.noConfusion
      hroom.lastMeta) _ fun _ _ h => h.elim
    intro done t hdone
    obtain ⟨rfl, hdone⟩ := hdone
    refine ⟨rfl, ?_⟩
    rw [hverdict']
    exact .of_begun (.decided hroom.tests hdone (Handle.htid_begun htable hkey))
  · intro currHandle atEnd table s hmeta _ htable hroom
    unfold dumpAndLoop
    rw [wp_bind]
    apply wp_mono (hdump atEnd s hmeta hroom.lastMeta) _ fun _ _ h => h.elim
    intro done t hdone
    obtain ⟨rfl, hdone⟩ := hdone
    rw [if_pos rfl, wp_pure, hverdict']
    exact .decided hroom hdone htable

/-- Tests in front of what follows. -/
theorem andPrints_and (ha : PlainTest a) (hb : AndPrints cfg conforms b) :
    AndPrints cfg conforms (.op .logicalAnd t a b c) := by
  intro currHandle atEnd table s hmeta hkeys htable hroom
  obtain ⟨test, heval, hdump⟩ := ha.spec conforms
  rw [dumpAndLoop_and cfg ha, wp_bind]
  apply wp_mono (hdump cfg currHandle atEnd hmeta hkeys) _ fun _ _ h => h
  intro useful u hu
  obtain ⟨isMeta, keys, hmeta', rfl⟩ := hu.same
  cases useful with
  | true =>
      rw [if_pos rfl]
      apply wp_mono (hb currHandle atEnd hmeta' (hu.good rfl) htable
        hroom.tests) _ fun _ _ h => h
      intro _ u hu'
      have hverdict : (fun packet => if KeysMatch keys packet then
          Verdict conforms b packet else none) = fun packet =>
            if KeysMatch s.keys packet then
              Verdict conforms (.op .logicalAnd t a b c) packet else none := by
        funext packet
        rw [verdict_and (heval packet), ← ite_and]
        exact if_congr (hu.matches_ rfl packet) rfl rfl
      rw [linksWithin_and, linksWithin_and, ← hverdict]
      exact .of_tests hu'
  | false =>
      rw [if_neg Bool.false_ne_true, wp_pure]
      refine (Emitted.nothing (t := { s with isMeta, keys }) hroom rfl rfl rfl
        ⟨rfl, rfl, hroom.lastMeta⟩ fun packet => ?_).mono (Nat.zero_le _)
          (Nat.zero_le _)
      rw [verdict_and (heval packet)]
      split
      · next hmatch =>
          rw [hu.never rfl packet hmatch]
          rfl
      · rfl

/-- Alternatives within a conjunction are behind a link. -/
theorem andPrints_or (h : OrPrints cfg conforms (.op .logicalOr t a b c))
    (hnone : actionTree (.op .logicalOr t a b c) = false)
    (hsize : (Data.op .logicalOr t a b c).size < 2 ^ 20) :
    AndPrints cfg conforms (.op .logicalOr t a b c) := by
  intro currHandle atEnd table s hmeta hkeys htable hroom
  rw [linksWithin_or] at hroom
  have hnext := hroom.next
  unfold dumpAndLoop
  rw [dumpAction_none cfg hnone]
  change wp (dumpOther cfg (.op .logicalOr t a b c) currHandle atEnd 0) _ _ s
  rw [dumpOther_or]
  apply wp_linkPrinted hmeta hroom.lastMeta
  intro u hu
  generalize s.handle + 0x100000 = next at hu hnext
  have hself : next.toNat % 2 ^ 20 = 0 := by
    have := hroom.aligned
    omega
  have hroom' : Room next (tableCount (.op .logicalOr t a b c)) u := by
    have hleft := hroom.left
    constructor
    case aligned => exact hu.handle ▸ hself
    case left =>
      rw [hu.handle, tableCount]
      omega
    case table => exact .inr (Nat.le_of_eq (congrArg _ hu.handle.symm))
    case lastMeta => exact hu.place.lastMeta
  rw [wp_bind]
  apply wp_mono (h next atEnd false (Handle.htid_eq_self hself) (by
    rw [Handle.key_toNat]
    omega) hroom') _ fun _ _ h => h
  intro _ v hv
  obtain ⟨rule, hstack⟩ := hu.ruleStack
  rw [wp_bind]
  apply (popRule_cons (hv.ruleStack.trans hstack)).mpr
  exact .behind hu hv hnext hroom htable

/-- A conjunction is one alternative. -/
theorem orPrints_and (ha : PlainTest a)
    (h : AndPrints cfg conforms (.op .logicalAnd t a b c)) :
    OrPrints cfg conforms (.op .logicalAnd t a b c) := by
  intro currHandle atEnd useful table s htable hkey hroom
  unfold dumpOr
  dsimp only
  rw [wp_bind, beginMatch, wp_modify, dumpAction_none cfg ha.actionTree_and]
  change wp (do
    let this ← dumpAnd cfg (.op .logicalAnd t a b c) (currHandle + 1) atEnd 0
    pure (this || useful)) _ _ (s.begun (currHandle + 1))
  rw [dumpAnd_eq cfg rfl, wp_bind]
  apply wp_mono (h (currHandle + 1) atEnd (s := s.begun (currHandle + 1))
    IsMeta.noConfusion GoodKeys.nil (Handle.htid_begun htable hkey)
    hroom.tests) _ fun _ _ h => h
  intro _ t ht
  exact .of_begun ht

/-- The alternatives before come first. -/
theorem orPrints_or (ha : AndPrints cfg conforms a)
    (hb : OrPrints cfg conforms b) (hruled : Ruled a) (hop : a.isOp = true)
    (hchain : isLogicalOr a = false) :
    OrPrints cfg conforms (.op .logicalOr t a b c) := by
  intro currHandle atEnd useful table s htable hkey hroom
  have hhandle : (currHandle + 1).htid = table :=
    Handle.htid_begun htable hkey
  simp only [Data.size] at hkey
  have hkey' := (Handle.htid_succ (h := currHandle) (by omega)).2
  have hlinks : linksWithin (· + ·) a = tableCount a := by
    rw [linksWithin, hchain]
    rfl
  have hdepth : linksWithin max a = nesting a := by
    rw [linksWithin, hchain]
    rfl
  have hroom' : Room table (tableCount a + tableCount b) s := hroom
  have hfirst : Room table (linksWithin (· + ·) a)
      (s.begun (currHandle + 1)) := by
    rw [hlinks]
    exact (hroom'.mono (Nat.le_add_right _ _)).tests
  unfold dumpOr
  dsimp only
  rw [wp_bind, beginMatch, wp_modify,
    dumpAction_none cfg (hruled.actionTree_or hop)]
  change wp (do
    let this ← dumpAnd cfg a (currHandle + 1) false 0
    dumpOr cfg b (currHandle + 1) atEnd 0 (useful || this)) _ _
      (s.begun (currHandle + 1))
  rw [dumpAnd_eq cfg hchain, wp_bind]
  apply wp_mono (ha (currHandle + 1) false (s := s.begun (currHandle + 1))
    IsMeta.noConfusion GoodKeys.nil hhandle hfirst) _ fun _ _ h => h
  intro this u hu
  rw [hlinks, hdepth] at hu
  have hu' := hu.of_begun
  have hsecond : Room table (tableCount b) u := by
    have hle := hu'.le
    have hbound := hu'.bound
    refine ⟨hu'.aligned, Nat.lt_of_le_of_lt (by omega) hroom'.left, ?_,
      hu'.place.lastMeta⟩
    exact hroom'.table.imp id fun h => Nat.le_trans h hle
  apply wp_mono (hb (currHandle + 1) atEnd (useful || this)
    hhandle (by omega) hsecond) _ fun _ _ h => h
  intro _ v hv
  have hverdict : Verdict conforms (.op .logicalOr t a b c) = fun packet =>
      (Verdict conforms a packet).or (Verdict conforms b packet) :=
    funext (verdict_or hruled)
  rw [hverdict]
  exact hu'.append hv hroom'

/-- The rules decide as the expression does, in its own table or behind a
link. -/
theorem Ruled.prints (hd : Ruled d) (hsize : d.size < 2 ^ 20) :
    OrPrints cfg conforms d ∧ AndPrints cfg conforms d := by
  induction hd with
  | toClass c =>
      refine prints_decision (fun atEnd _ h h' => ?_) fun _ => rfl
      exact dumpAction_class cfg atEnd h h' c
  | drop =>
      refine prints_decision (fun atEnd _ h h' => ?_) fun _ => rfl
      exact dumpAction_drop cfg atEnd h h'
  | and ha hb ih =>
      simp only [Data.size] at hsize
      have hand := (ih (by omega)).2
      exact ⟨orPrints_and ha (andPrints_and ha hand), andPrints_and ha hand⟩
  | or ha hop hchain hb iha ihb =>
      have hsizes := hsize
      simp only [Data.size] at hsizes
      have ha' := (iha (by omega)).2
      have hb' := (ihb (by omega)).1
      refine ⟨orPrints_or ha' hb' ha hop hchain, ?_⟩
      exact andPrints_or (orPrints_or ha' hb' ha hop hchain)
        (ha.actionTree_or hop) hsize

/-- Nothing is printed for what is left to the next classifier. -/
theorem orPrints_toNext : OrPrints cfg conforms (.decision .drContinue) := by
  intro currHandle atEnd useful table s htable hkey hroom
  apply wp_dumpOr_action
  apply wp_mono (dumpAction_continue cfg atEnd
    (s := s.begun (currHandle + 1)) rfl hroom.lastMeta) _ fun _ _ h => h.elim
  intro done t hdone
  obtain ⟨rfl, hstack, hhandle, houtput, hplace⟩ := hdone
  refine ⟨rfl, .nothing hroom hstack hhandle houtput ?_ fun _ => rfl⟩
  exact ⟨hplace.protocol, hplace.prioOffset, hplace.lastMeta⟩

theorem RuledToEnd.prints (hd : RuledToEnd d) (hsize : d.size < 2 ^ 20) :
    OrPrints cfg conforms d := by
  induction hd with
  | ruled h => exact (h.prints hsize).1
  | toNext => exact orPrints_toNext
  | or ha hop hchain hb ih =>
      simp only [Data.size] at hsize
      have ha' : AndPrints cfg conforms _ := (ha.prints (by omega)).2
      exact orPrints_or ha' (ih (by omega)) ha hop hchain

end

/-- The rules of a pass, tried from the root table, decide on each packet what
the expression does, unless a match has too many keys. -/
theorem dumpPass_classifies (cfg : Config)
    (conforms : List Bucket → Bucket → Bool) {d : Data} (hd : RuledToEnd d)
    (protocol : Option (BitVec 16)) {s : State} (hsize : d.size < 2 ^ 20)
    (haligned : s.handle.toNat % 2 ^ 20 = 0)
    (hleft : s.handle.toNat + 2 ^ 20 * tableCount d < u32Root.toNat) :
    wp (dumpPass cfg d protocol)
      (fun _ t => ∃ lines, t.output = s.output ++ lines ∧
        (∀ line ∈ lines, line.table.isSome →
          line.PlainAt (protocol.getD ethPAll) s.prioOffset) ∧
        ∀ packet inProfile depth, nesting d < depth →
          (reading packet inProfile).classify lines depth u32Root =
            Verdict conforms d packet)
      (fun e _ => e = tooManyKeys) s := by
  have hkey : u32Root.key.toNat + d.size < 2 ^ 20 := by
    have hzero : u32Root.key.toNat = 0 := rfl
    omega
  have hprints : OrPrints cfg conforms d := hd.prints hsize
  unfold dumpPass nextHash
  rw [wp_bind, wp_modify, wp_bind, wp_modify, wp_bind]
  have hroom : Room u32Root (tableCount d) { s with
      protocol
      lastMeta := .undecided
      cachedProtocol := protocol.getD ethPAll
      cachedHandle := s.handle + 0x100000
      cached := true } :=
    ⟨haligned, hleft, .inl rfl, IsMeta.noConfusion⟩
  apply wp_mono (hprints u32Root true false rfl hkey hroom) _ fun _ _ h => h
  intro _ t ht
  obtain ⟨lines, houtput, hplain, hblock⟩ := ht.lines
  refine ⟨lines, houtput, hplain, fun packet inProfile depth hdepth => ?_⟩
  exact (hblock packet inProfile).classify_eq hdepth

/-- For IPv4, TCP goes to class 1 and everything else is dropped; other
packets are left to the next classifier. -/
def tcpRules : Data :=
  .logicalOr
    (.logicalAnd
      (.eq (.op .and .unum (.unum 0xf0)
        (.op .access .unum .none (.unum 0) (.unum 8)) .none) (.unum 0x40))
      (.logicalOr
        (.logicalAnd
          (.eq (.op .access .unum .none (.unum 9) (.unum 8)) (.unum 6))
          (.decision (.drClass 1)))
        (.decision .drDrop)))
    (.decision .drContinue)

theorem dumpPass_classifies_tcp :
    wp (dumpPass plainConfig tcpRules none)
      (fun _ t => ∃ lines, t.output = State.start.output ++ lines ∧
        (∀ line ∈ lines, line.table.isSome →
          line.PlainAt (Option.getD none ethPAll) State.start.prioOffset) ∧
        ∀ packet inProfile depth, nesting tcpRules < depth →
          (reading packet inProfile).classify lines depth u32Root =
            Verdict (fun _ _ => true) tcpRules packet)
      (fun e _ => e = tooManyKeys) State.start := by
  have hversion : EqTest (.unum 0x40) (.op .and .unum (.unum 0xf0)
      (.op .access .unum .none (.unum 0) (.unum 8)) .none) 0 8 _ :=
    ⟨rfl, ⟨.none, .andLeft .unum .none rfl (.access .unum)⟩, .inl rfl,
      by decide⟩
  have hprotocol : EqTest (.unum 6)
      (.op .access .unum .none (.unum 9) (.unum 8)) 9 8 0xff :=
    ⟨rfl, ⟨.none, .access .unum⟩, .inl rfl, by decide⟩
  have htcp : Ruled (.logicalAnd
      (.eq (.op .access .unum .none (.unum 9) (.unum 8)) (.unum 6))
      (.decision (.drClass 1))) := .and (.right hprotocol) (.toClass 1)
  have hipv4 : Ruled (.logicalAnd
      (.eq (.op .and .unum (.unum 0xf0)
        (.op .access .unum .none (.unum 0) (.unum 8)) .none) (.unum 0x40))
      (.logicalOr
        (.logicalAnd
          (.eq (.op .access .unum .none (.unum 9) (.unum 8)) (.unum 6))
          (.decision (.drClass 1)))
        (.decision .drDrop))) := .and (.right hversion) (.or htcp rfl rfl .drop)
  exact dumpPass_classifies plainConfig _ (.or hipv4 rfl rfl .toNext) none
    (by decide) (by decide) (by decide)

end Tcng.IfU32
