import Mathlib.Data.List.Nodup
import Tcng.IfU32.Stack
import Tcng.Lib.Mask

/-! Hash tables of the printed rules. The table for a link is made in advance,
under a handle computed before others may be allocated for issuing a rule
again. -/

namespace Tcng.IfU32

open Program

/-! ## Handles -/

theorem Handle.htid_toNat (h : Handle) :
    h.htid.toNat = h.toNat / 2 ^ 20 * 2 ^ 20 :=
  toNat_and_high h 0xFFF00000 rfl

theorem Handle.key_toNat (h : Handle) : h.key.toNat = h.toNat % 2 ^ 20 :=
  toNat_and_low h 0xFFFFF rfl

/-- A handle that is only the number of a table. -/
theorem Handle.htid_eq_self {h : Handle} (hh : h.toNat % 2 ^ 20 = 0) :
    h.htid = h := by
  apply BitVec.eq_of_toNat_eq
  rw [Handle.htid_toNat]
  omega

theorem Handle.htid_or_key (a b : Handle) :
    (a.htid ||| b.key).htid = a.htid :=
  or_and_of_disjoint a b _ _ rfl

theorem Handle.htid_succ {h : Handle} (hkey : h.key.toNat + 1 < 2 ^ 20) :
    (h + 1).htid = h.htid ∧ (h + 1).key.toNat = h.key.toNat + 1 := by
  rw [key_toNat] at hkey ⊢
  have hsucc : (h + 1).toNat = h.toNat + 1 := by
    rw [BitVec.toNat_add]
    have := h.isLt
    simp
    omega
  constructor
  · apply BitVec.eq_of_toNat_eq
    rw [htid_toNat, htid_toNat, hsucc]
    omega
  · rw [key_toNat, hsucc]
    omega

/-- There is a next table below the root. -/
theorem Handle.next_toNat {h : Handle}
    (hroom : h.toNat + 2 ^ 20 < u32Root.toNat) :
    (h + 0x100000).toNat = h.toNat + 2 ^ 20 := by
  rw [BitVec.toNat_add]
  have := u32Root.isLt
  simp
  omega

/-! ## What is asked of the output -/

/-- The table a line is to make. -/
def Line.created (line : Line) : Option Handle :=
  match line.selector with
  | .divisor handle => some handle
  | _ => none

def createdTables (lines : List Line) : List Handle :=
  lines.filterMap Line.created

/-- The tables a rule lives in or links to. -/
def Line.tables (line : Line) : List Handle :=
  (match line.selector with
    | .u32 (some handle) => [handle.htid]
    | _ => []) ++ line.link.toList

/-- Each table but the root has been made by exactly one line before. -/
def TablesCreated (output : List Line) : Prop :=
  ∀ before line after, output = before ++ line :: after →
    ∀ table ∈ line.tables, table ≠ u32Root →
      (createdTables before).count table = 1

/-- At each link, the table made in advance is the one linked to. -/
def State.Synced (s : State) : Prop :=
  ∀ handle cachedHandle, Step.link handle cachedHandle ∈ s.steps →
    cachedHandle = handle + 0x100000

/-- New handles have not reached that of the root. -/
def State.HandlesLeft (s : State) : Prop :=
  ∀ handle, Step.newHandle handle ∈ s.steps →
    handle.toNat + 2 ^ 20 < u32Root.toNat

/-- What a rule is about. -/
theorem Line.mem_tables {line : Line} {c : Prop} [Decidable c]
    {handle table : Handle}
    (hselector : line.selector = .u32 (if c then none else some handle))
    (hmem : table ∈ line.tables) :
    table = handle.htid ∨ line.link = some table := by
  rw [Line.tables, List.mem_append, hselector, Option.mem_toList] at hmem
  rcases hmem with hmem | hmem
  · left
    split at hmem
    · rename_i h hh
      split at hh
      · cases hh
      · cases hh
        exact List.mem_singleton.mp hmem
    · cases hmem
  · exact .inr hmem

@[simp] theorem createdTables_nil : createdTables [] = [] := rfl

theorem createdTables_append (xs ys : List Line) :
    createdTables (xs ++ ys) = createdTables xs ++ createdTables ys :=
  List.filterMap_append

theorem tablesCreated_nil : TablesCreated [] := by
  intro before line after h
  simp at h

theorem tablesCreated_append (output : List Line) (line : Line) :
    TablesCreated (output ++ [line]) ↔
      TablesCreated output ∧ ∀ table ∈ line.tables, table ≠ u32Root →
        (createdTables output).count table = 1 := by
  constructor
  · intro h
    constructor
    · intro before line' after heq
      apply h before line' (after ++ [line])
      rw [heq]
      simp
    · exact h output line [] rfl
  · rintro ⟨houtput, hline⟩ before line' after heq
    rcases List.eq_nil_or_concat after with rfl | ⟨after', last, rfl⟩
    · obtain ⟨rfl, hlast⟩ := List.append_inj' heq rfl
      cases hlast
      exact hline
    · rw [List.concat_eq_append, ← List.cons_append, ← List.append_assoc]
        at heq
      obtain ⟨hinit, -⟩ := List.append_inj' heq rfl
      exact houtput before line' after' hinit

theorem tablesCreated_iff (output : List Line) :
    TablesCreated output ↔ ∀ i (h : i < output.length),
      ∀ table ∈ output[i].tables, table ≠ u32Root →
        (createdTables (output.take i)).count table = 1 := by
  constructor
  · intro hcreated i h
    apply hcreated (output.take i) output[i] (output.drop (i + 1))
    rw [← List.drop_eq_getElem_cons h, List.take_append_drop]
  · rintro hcreated before line after rfl
    have hline := hcreated before.length (by simp)
    simpa using hline

theorem TablesCreated.of_prefix {xs ys : List Line} (h : TablesCreated ys)
    (hbegins : xs <+: ys) : TablesCreated xs := by
  obtain ⟨rest, rfl⟩ := hbegins
  intro before line after heq
  apply h before line (after ++ rest)
  rw [heq, List.append_assoc, List.cons_append]

/-! ## States in order -/

/-- Steps and lines are only added. -/
structure Extends (s t : State) : Prop where
  steps : s.steps <+: t.steps
  output : s.output <+: t.output

theorem Extends.refl (s : State) : Extends s s :=
  ⟨List.prefix_refl _, List.prefix_refl _⟩

theorem Extends.trans {s t u : State} (h : Extends s t) (h' : Extends t u) :
    Extends s u := ⟨h.steps.trans h'.steps, h.output.trans h'.output⟩

theorem State.HandlesLeft.of_extends {s t : State} (h : t.HandlesLeft)
    (hst : Extends s t) : s.HandlesLeft := fun handle hmem =>
  h handle (hst.steps.subset hmem)

/-- The table of a handle is the root or has been made. -/
def Alive (s : State) (h : Handle) : Prop :=
  h.htid = u32Root ∨ h.htid ∈ createdTables s.output

theorem Alive.extends {s t : State} {h : Handle} (ha : Alive s h)
    (hst : Extends s t) : Alive t h := by
  rcases ha with hroot | hmem
  · exact .inl hroot
  · right
    obtain ⟨rest, hrest⟩ := hst.output
    rw [← hrest, createdTables_append]
    exact List.mem_append_left _ hmem

/-- All is well with the tables. -/
structure Core (s : State) : Prop where
  synced : s.Synced
  handle : s.handle.toNat % 2 ^ 20 = 0 ∧ s.handle.toNat < u32Root.toNat
  cachedHandle : s.cachedHandle.toNat % 2 ^ 20 = 0 ∧
    0 < s.cachedHandle.toNat ∧
    s.cachedHandle.toNat ≤ s.handle.toNat + 2 ^ 20
  cached : s.cached = true
  nodup : (createdTables s.output).Nodup
  range : ∀ table ∈ createdTables s.output,
    0 < table.toNat ∧ table.toNat ≤ s.handle.toNat
  tables : TablesCreated s.output

/-- Nothing changes that the tables depend on. -/
structure Alike (s t : State) : Prop where
  steps : t.steps = s.steps
  handle : t.handle = s.handle
  cached : t.cached = s.cached
  cachedHandle : t.cachedHandle = s.cachedHandle
  currHandle : t.currHandle = s.currHandle
  output : t.output = s.output

theorem Idle.alike {s t : State} (h : Idle s t) : Alike s t :=
  ⟨h.steps, h.handle, h.cached, h.cachedHandle, h.currHandle, h.output⟩

theorem Alike.extends {s t : State} (h : Alike s t) : Extends s t :=
  ⟨h.steps ▸ List.prefix_refl _, h.output ▸ List.prefix_refl _⟩

theorem Core.of_eq {s t : State} (h : Core s) (hsynced : t.Synced)
    (hhandle : t.handle = s.handle) (hcached : t.cached = s.cached)
    (hcachedHandle : t.cachedHandle = s.cachedHandle)
    (houtput : t.output = s.output) : Core t where
  synced := hsynced
  handle := hhandle ▸ h.handle
  cachedHandle := by
    rw [hcachedHandle, hhandle]
    exact h.cachedHandle
  cached := hcached.trans h.cached
  nodup := houtput ▸ h.nodup
  range := by
    rw [houtput, hhandle]
    exact h.range
  tables := houtput ▸ h.tables

theorem Core.alike {s t : State} (h : Core s) (hst : Alike s t) : Core t := by
  apply h.of_eq _ hst.handle hst.cached hst.cachedHandle hst.output
  rw [State.Synced, hst.steps]
  exact h.synced

/-- A table that was made has been made once. -/
theorem Core.count {s : State} (h : Core s) {table : Handle}
    (hmem : table ∈ createdTables s.output) :
    (createdTables s.output).count table = 1 :=
  List.count_eq_one_of_mem h.nodup hmem

/-- `rule` is where it can be linked from, and so are all rules on the
stack. -/
structure ReadyAt (h : Handle) (s : State) : Prop where
  core : Core s
  linked : ∀ rule ∈ s.ruleStack, rule.link ≠ 0 ∧ Alive s rule.handle
  alive : Alive s h

abbrev Ready (s : State) : Prop := ReadyAt s.currHandle s

/-- A link went to a table that was not made for it. -/
structure Broken (s : State) : Prop where
  unsynced : ¬s.Synced
  tables : ¬TablesCreated s.output

theorem Broken.extends {s t : State} (h : Broken s) (hst : Extends s t) :
    Broken t where
  unsynced hsynced := h.unsynced fun handle cachedHandle hmem =>
    hsynced handle cachedHandle (hst.steps.subset hmem)
  tables htables := h.tables (htables.of_prefix hst.output)

/-- As long as handles are left, order is kept or visibly lost. -/
structure Orderly (s t : State) : Prop where
  extends_ : Extends s t
  ready : Ready s → t.HandlesLeft → Ready t ∨ Broken t

abbrev Steady {α : Type} (x : Emit α) : Prop :=
  Relates x Orderly fun _ _ _ => True

theorem orderly_composes : Composes Orderly fun (_ : Error) _ _ => True where
  refl s := ⟨.refl s, fun h _ => .inl h⟩
  trans := by
    intro s t u hst htu
    refine ⟨hst.extends_.trans htu.extends_, fun hs hu => ?_⟩
    rcases hst.ready hs (hu.of_extends htu.extends_) with ht | ht
    · exact htu.ready ht hu
    · exact .inr (ht.extends htu.extends_)
  fails _ _ := trivial

theorem Alike.orderly {s t : State} (h : Alike s t)
    (hstack : t.ruleStack = s.ruleStack) : Orderly s t where
  extends_ := h.extends
  ready hs _ := by
    left
    refine ⟨hs.core.alike h, ?_, ?_⟩
    · rw [hstack]
      intro rule hrule
      exact ⟨(hs.linked rule hrule).1, (hs.linked rule hrule).2.extends h.extends⟩
    · rw [h.currHandle]
      exact hs.alive.extends h.extends

theorem Idles.steady {α : Type} {x : Emit α} (h : Idles x) : Steady x :=
  Relates.mono h (fun _ _ hi => hi.alike.orderly hi.ruleStack) fun _ _ _ _ =>
    trivial

theorem steady_bind {α β : Type} {x : Emit α} {f : α → Emit β}
    (hx : Steady x) (hf : ∀ a, Steady (f a)) : Steady (x >>= f) :=
  .bind orderly_composes hx hf

theorem steady_throw {α : Type} (e : Error) : Steady (throw e : Emit α) :=
  fun _ => trivial

/-! ## Lines of rules -/

/-- The line that is being printed is about tables there are. -/
def Pending (s : State) : Prop :=
  ∀ line, s.line = some line → line.created = none ∧
    ∀ table ∈ line.tables, table ≠ u32Root → table ∈ createdTables s.output

private theorem tables_eq_of_place {a b : Line} (h : a.place = b.place) :
    a.tables = b.tables ∧ a.created = b.created := by
  have hselector : a.selector = b.selector := congrArg Prod.fst h
  have hlink : a.link = b.link := congrArg Prod.snd h
  simp only [Line.tables, Line.created, hselector, hlink, true_and]

theorem Pending.idle {s t : State} (h : Pending s) (hst : Idle s t) :
    Pending t := by
  intro line hline
  have hplace := hst.line
  rw [hline] at hplace
  cases hs : s.line with
  | none =>
      rw [hs] at hplace
      cases hplace
  | some line' =>
      rw [hs] at hplace
      obtain ⟨htables, hcreated⟩ :=
        tables_eq_of_place (Option.some.inj hplace)
      rw [htables, hcreated, hst.output]
      exact h line' hs

/-- A line of a rule that links to nothing, or of a meta field. -/
theorem pending_place {s : State} {line : Line} (hline : s.line = some line)
    (hlink : line.link = none)
    (hselector : (∀ h, line.selector ≠ .divisor h) ∧
      ∀ h, line.selector = .u32 (some h) → Alive s h) : Pending s := by
  intro line' hline'
  cases hline.symm.trans hline'
  constructor
  · cases hs : line.selector with
    | divisor h => exact absurd hs (hselector.1 h)
    | _ => simp [Line.created, hs]
  · intro table htable hroot
    rw [Line.tables, hlink] at htable
    cases hs : line.selector with
    | u32 handle =>
        cases handle with
        | none => simp [hs] at htable
        | some h =>
            simp only [hs, Option.toList_none, List.append_nil,
              List.mem_singleton] at htable
            subst htable
            exact (hselector.2 h hs).resolve_left hroot
    | _ => simp [hs] at htable

/-- One more line about tables there are. -/
theorem Core.addLine {s t : State} (h : Core s) {line : Line}
    (hsteps : t.steps = s.steps) (hhandle : t.handle = s.handle)
    (hcached : t.cached = s.cached)
    (hcachedHandle : t.cachedHandle = s.cachedHandle)
    (houtput : t.output = s.output ++ [line]) (hcreated : line.created = none)
    (htables : ∀ table ∈ line.tables, table ≠ u32Root →
      table ∈ createdTables s.output) : Core t := by
  have hsame : createdTables t.output = createdTables s.output := by
    rw [houtput, createdTables_append]
    simp [createdTables, hcreated]
  constructor
  case synced =>
    rw [State.Synced, hsteps]
    exact h.synced
  case handle => exact hhandle ▸ h.handle
  case cachedHandle =>
    rw [hcachedHandle, hhandle]
    exact h.cachedHandle
  case cached => exact hcached.trans h.cached
  case nodup => exact hsame ▸ h.nodup
  case range =>
    rw [hsame, hhandle]
    exact h.range
  case tables =>
    rw [houtput, tablesCreated_append]
    exact ⟨h.tables, fun table hmem hroot => h.count (htables table hmem hroot)⟩

/-- A new table, made right away. -/
theorem Core.addTable {s t : State} (h : Core s) (hleft : t.HandlesLeft)
    {line : Line} (hsteps : t.steps = s.steps ++ [.newHandle s.handle])
    (hhandle : t.handle = s.handle + 0x100000) (hcached : t.cached = s.cached)
    (hcachedHandle : t.cachedHandle = s.cachedHandle)
    (houtput : t.output = s.output ++ [line])
    (hcreated : line.created = some t.handle) (htables : line.tables = []) :
    Core t := by
  have hroom : s.handle.toNat + 2 ^ 20 < u32Root.toNat := by
    apply hleft
    rw [hsteps]
    simp
  have hnext : t.handle.toNat = s.handle.toNat + 2 ^ 20 := by
    rw [hhandle]
    exact Handle.next_toNat hroom
  have hmore : createdTables t.output = createdTables s.output ++ [t.handle] := by
    rw [houtput, createdTables_append]
    simp [createdTables, hcreated]
  have hmod := h.handle.1
  constructor
  case synced =>
    intro handle cachedHandle hmem
    rw [hsteps] at hmem
    apply h.synced
    simpa using hmem
  case handle => exact ⟨by omega, by omega⟩
  case cachedHandle =>
    have := h.cachedHandle
    rw [hcachedHandle]
    exact ⟨this.1, this.2.1, by omega⟩
  case cached => exact hcached.trans h.cached
  case nodup =>
    rw [hmore, List.nodup_append]
    refine ⟨h.nodup, List.nodup_singleton _, ?_⟩
    intro table hmem table' hmem' heq
    rw [List.mem_singleton.mp hmem'] at heq
    have := (h.range table hmem).2
    rw [heq] at this
    omega
  case range =>
    intro table hmem
    rw [hmore, List.mem_append, List.mem_singleton] at hmem
    rcases hmem with hmem | rfl
    · have := h.range table hmem
      exact ⟨this.1, by omega⟩
    · exact ⟨by omega, Nat.le_refl _⟩
  case tables =>
    rw [houtput, tablesCreated_append]
    refine ⟨h.tables, fun table hmem => ?_⟩
    rw [htables] at hmem
    cases hmem

/-- The line of a rule. -/
private theorem dumpRule_spec (rule : Rule) (myHandle : Handle) (s : State) :
    ∃ line, line.selector =
        .u32 (if rule.handle.htid = u32Root then none else some myHandle) ∧
      (rule.link = 0 → line.link = none ∧
        dumpRule rule myHandle s = (.ok (), { s with line := some line })) ∧
      (rule.link ≠ 0 → line.link = some s.handle.htid ∧
        dumpRule rule myHandle s = (.ok (), { s with
          line := none
          output := s.output ++ [line] })) := by
  let line : Line :=
    { protocol := s.protocolId
      prioOffset := s.prioOffset
      selector :=
        .u32 (if rule.handle.htid = u32Root then none else some myHandle)
      tests := rule.tests
      plus := if rule.plus ≠ 0 then some rule.plus else none
      offsetAt :=
        if rule.mask ≠ 0 then some (rule.offset, rule.mask, rule.shift)
        else none
      link := if rule.link = 0 then none else some s.handle.htid }
  refine ⟨line, rfl, fun hlink => ⟨if_pos hlink, ?_⟩,
    fun hlink => ⟨if_neg hlink, ?_⟩⟩
  · change (if rule.link ≠ 0 then _ else pure () : Emit Unit) _ = _
    rw [if_neg (not_not.mpr hlink)]
    simp only [line, if_pos hlink]
    rfl
  · change (if rule.link ≠ 0 then _ else pure () : Emit Unit) _ = _
    rw [if_pos hlink]
    simp only [line, if_neg hlink]
    rfl

/-- The rules of the stack have been issued again, down to the line of the
last one or to the table that it links to. -/
structure Restacked (rules : List Rule) (s t : State) : Prop where
  extends_ : Extends s t
  ruleStack : t.ruleStack = s.ruleStack
  isMeta : t.isMeta = s.isMeta
  currHandle : t.currHandle = s.currHandle
  core : Core s → (∀ rule ∈ rules.tail, rule.link ≠ 0) →
    (∀ rule ∈ rules, Alive s rule.handle) → t.HandlesLeft →
      Core t ∧ ∀ rule ∈ rules.head?,
        (rule.link ≠ 0 → t.handle ∈ createdTables t.output) ∧
          (rule.link = 0 → Pending t)

/-- A rule issued again lives in the newest table, or where it was. -/
private theorem alive_again {s t : State} {rule : Rule} {prev : List Rule}
    (hcore : Core t) (hst : Extends s t) (halive : Alive s rule.handle)
    (hnewest : prev ≠ [] → t.handle ∈ createdTables t.output) :
    Alive t (if prev = [] then rule.handle
      else t.handle.htid ||| rule.handle.key) := by
  split
  · exact halive.extends hst
  · rename_i hprev
    right
    rw [Handle.htid_or_key, Handle.htid_eq_self hcore.handle.1]
    exact hnewest hprev

private theorem dumpStack_restacks (rules : List Rule) (s : State) :
    wp (dumpStack rules) (fun _ t => Restacked rules s t) (fun _ _ => True)
      s := by
  induction rules with
  | nil =>
      refine ⟨.refl s, rfl, rfl, rfl, fun h _ _ _ => ⟨h, ?_⟩⟩
      rintro _ ⟨⟩
  | cons rule prev ih =>
      unfold dumpStack
      rw [wp_bind]
      apply wp_mono ih _ (fun _ _ h => h)
      intro _ t ht
      -- what is known of the rules before, and where this one goes
      have hbefore (hs : Core s) (hlinks : ∀ r ∈ prev, r.link ≠ 0)
          (halive : ∀ r ∈ rule :: prev, Alive s r.handle) (ht' : t.HandlesLeft) :
          Core t ∧ Alive t (if prev = [] then rule.handle
            else t.handle.htid ||| rule.handle.key) := by
        obtain ⟨hcore, hhead⟩ := ht.core hs
          (fun r hr => hlinks r (List.mem_of_mem_tail hr))
          (fun r hr => halive r (List.mem_cons_of_mem _ hr)) ht'
        refine ⟨hcore, alive_again hcore ht.extends_
          (halive rule List.mem_cons_self) fun hne => ?_⟩
        cases prev with
        | nil => exact absurd rfl hne
        | cons r rest => exact (hhead r rfl).1 (hlinks r List.mem_cons_self)
      rw [wp_bind, wp_get]
      by_cases hlink : rule.link = 0
      · obtain ⟨line, hselector, hunlinked, -⟩ := dumpRule_spec rule
          (if prev = [] then rule.handle
            else t.handle.htid ||| rule.handle.key) t
        obtain ⟨hto, hrun⟩ := hunlinked hlink
        change wp (if rule.link ≠ 0 then _ else dumpRule rule _) _ _ t
        rw [if_neg (not_not.mpr hlink), wp, hrun]
        refine ⟨⟨ht.extends_.steps, ht.extends_.output⟩, ht.ruleStack,
          ht.isMeta, ht.currHandle, fun hs hlinks halive hleft => ?_⟩
        obtain ⟨hcore, halive'⟩ := hbefore hs hlinks halive hleft
        refine ⟨hcore.of_eq hcore.synced rfl rfl rfl rfl, ?_⟩
        rintro r ⟨⟩
        refine ⟨fun hne => absurd hlink hne, fun _ => ?_⟩
        apply pending_place rfl hto
        rw [hselector]
        constructor
        · rintro h ⟨⟩
        intro h hh
        split at hh
        · cases hh
        · cases hh
          exact halive'
      · -- the state after the line for the new table
        let table : Line :=
          { protocol := t.cachedProtocol
            prioOffset := t.prioOffset
            selector := .divisor (t.handle + 0x100000) }
        let u : State := { t with
          handle := t.handle + 0x100000
          line := none
          output := t.output ++ [table]
          steps := t.steps ++ [Step.newHandle t.handle] }
        obtain ⟨line, hselector, -, hlinked⟩ := dumpRule_spec rule
          (if prev = [] then rule.handle
            else t.handle.htid ||| rule.handle.key) u
        obtain ⟨hto, hrun⟩ := hlinked hlink
        change wp (if rule.link ≠ 0 then _ else dumpRule rule _) _ _ t
        rw [if_pos hlink, wp_bind, wp_newHandle, wp_bind, wp_tcFilterAdd,
          wp_bind, wp_tcNl]
        change wp (dumpRule rule _) _ _ u
        rw [wp, hrun]
        have hext : Extends t { u with
            line := none
            output := u.output ++ [line] } :=
          ⟨List.prefix_append _ _, by
            simp only [u, List.append_assoc]
            exact List.prefix_append _ _⟩
        refine ⟨ht.extends_.trans hext, ht.ruleStack, ht.isMeta, ht.currHandle,
          fun hs hlinks halive hleft => ?_⟩
        obtain ⟨hcore, halive'⟩ := hbefore hs hlinks halive
          (hleft.of_extends hext)
        have hoffered : table.created = some u.handle := rfl
        have hu : Core u :=
          hcore.addTable hleft rfl rfl rfl rfl rfl hoffered rfl
        have hnew : u.handle ∈ createdTables u.output := by
          rw [createdTables_append]
          exact List.mem_append_right _ (by simp [createdTables, table,
            Line.created, u])
        have hself := Handle.htid_eq_self hu.handle.1
        refine ⟨hu.addLine rfl rfl rfl rfl rfl ?_ ?_, ?_⟩
        · simp [Line.created, hselector]
        · intro table' hmem hroot
          rcases Line.mem_tables hselector hmem with rfl | hmem
          · rw [createdTables_append]
            exact List.mem_append_left _ (halive'.resolve_left hroot)
          · rw [hto, hself] at hmem
            exact Option.some.inj hmem ▸ hnew
        · rintro r ⟨⟩
          refine ⟨fun _ => ?_, fun hzero => absurd hzero hlink⟩
          rw [createdTables_append]
          exact List.mem_append_left _ hnew

/-! ## Actions -/

/-- Between the lines of an action that was begun in `s`. -/
structure Midway (s t : State) : Prop where
  core : Core t
  stack : (t.isMeta = .yes ∧ t.ruleStack = s.ruleStack) ∨
    t.isMeta = .no ∧ ∃ rule, rule.link = 0 ∧ Alive t rule.handle ∧
      t.ruleStack = rule :: s.ruleStack

/-- A program between lines, as far as `s` was in order. -/
structure Acting (s t : State) : Prop where
  extends_ : Extends s t
  currHandle : t.currHandle = s.currHandle
  midway : Ready s → t.HandlesLeft → Midway s t

/-- The same with a line begun. -/
structure ActingLine (s t : State) : Prop extends Acting s t where
  pending : Ready s → t.HandlesLeft → Pending t

private theorem Midway.alike {s t u : State} (h : Midway s t) (htu : Idle t u) :
    Midway s u where
  core := h.core.alike htu.alike
  stack := by
    rw [htu.isMeta, htu.ruleStack]
    rcases h.stack with hyes | ⟨hno, rule, hlink, halive, hstack⟩
    · exact .inl hyes
    · exact .inr ⟨hno, rule, hlink, halive.extends htu.alike.extends, hstack⟩

private theorem HandlesLeft.idle {t u : State} (h : u.HandlesLeft)
    (htu : Idle t u) : t.HandlesLeft := h.of_extends htu.alike.extends

private theorem Acting.idle {s t u : State} (h : Acting s t) (htu : Idle t u) :
    Acting s u where
  extends_ := h.extends_.trans htu.alike.extends
  currHandle := htu.currHandle.trans h.currHandle
  midway hs hu := (h.midway hs (HandlesLeft.idle hu htu)).alike htu

private theorem ActingLine.idle {s t u : State} (h : ActingLine s t)
    (htu : Idle t u) : ActingLine s u where
  toActing := h.toActing.idle htu
  pending hs hu := (h.pending hs (HandlesLeft.idle hu htu)).idle htu

private theorem ActingLine.tcNl {s t : State} (h : ActingLine s t) :
    Acting s { t with
      line := none
      output := t.output ++ t.line.toList } := by
  have hext : Extends t { t with
      line := none
      output := t.output ++ t.line.toList } :=
    ⟨List.prefix_refl _, List.prefix_append _ _⟩
  refine ⟨h.extends_.trans hext, h.currHandle, fun hs hleft => ?_⟩
  have hmid := h.midway hs (hleft.of_extends hext)
  have hpending := h.pending hs (hleft.of_extends hext)
  constructor
  case core =>
    cases hline : t.line with
    | none => exact hmid.core.of_eq hmid.core.synced rfl rfl rfl (by simp)
    | some line =>
        obtain ⟨hcreated, htables⟩ := hpending line hline
        exact hmid.core.addLine rfl rfl rfl rfl rfl hcreated htables
  case stack =>
    rcases hmid.stack with hyes | ⟨hno, rule, hlink, halive, hstack⟩
    · exact .inl hyes
    · exact .inr ⟨hno, rule, hlink, halive.extends hext, hstack⟩

private theorem dumpMeta_spec (s : State) :
    wp dumpMeta (fun _ t => ∃ line, line.link = none ∧
        (∀ h, line.selector ≠ .u32 h) ∧ (∀ h, line.selector ≠ .divisor h) ∧
          t = { s with line := some line })
      (fun _ _ => True) s := by
  unfold dumpMeta
  rw [wp_bind, wp_get, wp_ite, wp_ite]
  refine ⟨fun _ => ?_, fun _ => ⟨fun _ => ?_, fun _ => trivial⟩⟩
  all_goals
    refine ⟨_, rfl, fun _ h => ?_, fun _ h => ?_, rfl⟩
    all_goals cases h

private theorem syncMeta_alike (s : State) :
    wp syncMeta (fun _ t => Alike s t ∧ t.ruleStack = s.ruleStack ∧
        (t.isMeta ≠ .yes → t.isMeta = .no) ∧
        (s.isMeta ≠ .yes → t.isMeta ≠ .yes)) (fun _ _ => False) s := by
  refine ⟨⟨rfl, rfl, rfl, rfl, rfl, rfl⟩, rfl, ?_⟩
  change ((if s.isMeta = .undecided then IsMeta.no else s.isMeta) ≠ .yes → _) ∧
    (_ → (if s.isMeta = .undecided then IsMeta.no else s.isMeta) ≠ .yes)
  cases hs : s.isMeta with
  | undecided => exact ⟨fun _ => by simp [hs], fun _ => nofun⟩
  | no => exact ⟨fun _ => by simp [hs], fun _ => nofun⟩
  | yes => exact ⟨fun h => absurd rfl h, fun h => absurd rfl h⟩

/-- The line of a meta field. -/
private theorem actingLine_dumpMeta {s t : State} (h : Acting s t)
    (hyes : t.isMeta = .yes) :
    wp dumpMeta (fun _ u => ActingLine s u) (fun _ _ => True) t := by
  apply wp_mono (dumpMeta_spec t) _ (fun _ _ h => h)
  rintro _ u ⟨line, hlink, hrule, htable, rfl⟩
  have hext : Extends t { t with line := some line } :=
    ⟨List.prefix_refl _, List.prefix_refl _⟩
  constructor
  case pending =>
    intro _ _
    exact pending_place rfl hlink ⟨htable, fun h hh => absurd hh (hrule _)⟩
  case toActing =>
    refine ⟨h.extends_.trans hext, h.currHandle, fun hs hleft => ?_⟩
    have hmid := h.midway hs (hleft.of_extends hext)
    refine ⟨hmid.core.of_eq hmid.core.synced rfl rfl rfl rfl, ?_⟩
    rcases hmid.stack with hstack | ⟨hno, -⟩
    · exact .inl hstack
    · rw [hyes] at hno
      cases hno

private theorem dumpMatch_acts (s : State) :
    wp dumpMatch (fun _ t => ActingLine s t) (fun _ _ => True) s := by
  unfold dumpMatch
  rw [wp_bind]
  apply wp_mono (syncMeta_alike s) _ (fun _ _ h => h.elim)
  intro _ t ⟨hst, hstack, hdecided, _⟩
  rw [wp_bind, wp_get, wp_ite]
  constructor
  · intro hyes
    apply actingLine_dumpMeta _ hyes
    exact ⟨hst.extends, hst.currHandle, fun hs _ =>
      ⟨hs.core.alike hst, .inl ⟨hyes, hstack⟩⟩⟩
  · intro hyes
    have hno := hdecided hyes
    dsimp only
    rw [wp_bind, wp_modify]
    let tests : List Match :=
      if t.keys = [] then [⟨32, 0, 0, 0⟩] else t.keys.map Key.toMatch
    let rule : Rule := ⟨t.currHandle, tests, 0, 0, 0, 0, 0⟩
    let u : State := { t with ruleStack := rule :: t.ruleStack }
    change wp (dumpRule rule t.currHandle) _ _ u
    obtain ⟨line, hselector, hunlinked, -⟩ := dumpRule_spec rule t.currHandle u
    obtain ⟨hto, hrun⟩ := hunlinked rfl
    rw [wp, hrun]
    have halike : Alike s { u with line := some line } :=
      ⟨hst.steps, hst.handle, hst.cached, hst.cachedHandle, hst.currHandle,
        hst.output⟩
    have halive (hs : Ready s) :
        Alive { u with line := some line } t.currHandle := by
      have hbefore := hs.alive.extends halike.extends
      rwa [← hst.currHandle] at hbefore
    constructor
    case pending =>
      intro hs _
      apply pending_place rfl hto
      rw [hselector]
      refine ⟨fun h hz => absurd hz (by simp), fun h hh => ?_⟩
      split at hh
      · cases hh
      · cases hh
        exact halive hs
    case toActing =>
      refine ⟨halike.extends, hst.currHandle, fun hs _ =>
        ⟨hs.core.alike halike, .inr ⟨hno, rule, rfl, halive hs, ?_⟩⟩⟩
      change rule :: t.ruleStack = _
      rw [hstack]

private theorem dumpMatchAgain_acts {s t : State} (h : Acting s t) :
    wp dumpMatchAgain (fun _ u => ActingLine s u) (fun _ _ => True) t := by
  unfold dumpMatchAgain
  rw [wp_bind, wp_get, wp_ite, wp_ite]
  refine ⟨fun hyes => actingLine_dumpMeta h hyes,
    fun hno => ⟨fun _ => trivial, fun _ => ?_⟩⟩
  apply wp_mono (dumpStack_restacks _ t) _ (fun _ _ h => h)
  intro _ u hu
  -- the stack holds the rule of the action above linked ones
  have hrest (hs : Ready s) (hleft : u.HandlesLeft) :
      Midway s u ∧ Pending u := by
    have hmid := h.midway hs (hleft.of_extends hu.extends_)
    rcases hmid.stack with ⟨hyes, -⟩ | ⟨hno', rule, hlink, halive, hstack⟩
    · exact absurd hyes hno
    · have hlinked : ∀ r ∈ t.ruleStack.tail, r.link ≠ 0 := by
        rw [hstack]
        exact fun r hr => (hs.linked r hr).1
      have halive' : ∀ r ∈ t.ruleStack, Alive t r.handle := by
        rw [hstack]
        intro r hr
        rcases List.mem_cons.mp hr with rfl | hr
        · exact halive
        · exact (hs.linked r hr).2.extends h.extends_
      obtain ⟨hcore, hhead⟩ := hu.core hmid.core hlinked halive' hleft
      refine ⟨⟨hcore, .inr ⟨hu.isMeta.trans hno', rule, hlink,
        halive.extends hu.extends_, hu.ruleStack.trans hstack⟩⟩, ?_⟩
      exact (hhead rule (by rw [hstack]; rfl)).2 hlink
  constructor
  case pending => exact fun hs hleft => (hrest hs hleft).2
  case toActing =>
    exact ⟨h.extends_.trans hu.extends_, hu.currHandle.trans h.currHandle,
      fun hs hleft => (hrest hs hleft).1⟩

private theorem Ready.idle {s t : State} (h : Ready s) (hst : Idle s t) :
    Ready t where
  core := h.core.alike hst.alike
  linked := by
    rw [hst.ruleStack]
    exact fun rule hrule =>
      ⟨(h.linked rule hrule).1, (h.linked rule hrule).2.extends hst.alike.extends⟩
  alive := by
    rw [hst.currHandle]
    exact h.alive.extends hst.alike.extends

private theorem ActingLine.after {s t u : State} (hst : Idle s t)
    (h : ActingLine t u) : ActingLine s u where
  extends_ := hst.alike.extends.trans h.extends_
  currHandle := h.currHandle.trans hst.currHandle
  midway hs hleft := by
    have hmid := h.midway (Ready.idle hs hst) hleft
    exact ⟨hmid.core, by rw [← hst.ruleStack]; exact hmid.stack⟩
  pending hs hleft := h.pending (Ready.idle hs hst) hleft

private theorem actingRule_first (s : State) :
    LineRule false (Idle s) (ActingLine s) (Acting s) (fun _ _ => True) where
  before h hi := idle_composes.trans h hi
  begun {t} h := wp_mono (dumpMatch_acts t) (fun _ _ ht => ht.after h)
    fun _ _ _ => trivial
  within h hi := h.idle hi
  ended h := h.tcNl
  fails _ := trivial

private theorem actingRule_again (s : State) :
    LineRule true (Acting s) (ActingLine s) (Acting s) (fun _ _ => True) where
  before h hi := h.idle hi
  begun h := dumpMatchAgain_acts h
  within h hi := h.idle hi
  ended h := h.tcNl
  fails _ := trivial

/-- The rule of the action is popped, or another one if there was no line. -/
private theorem finish_orderly (out : List Char) {s t : State}
    (hext : Extends s t) (hcurr : t.currHandle = s.currHandle)
    (ht : Ready s → t.HandlesLeft → Core t ∧
      ∀ rule ∈ if t.isMeta = .no then t.ruleStack.tail else t.ruleStack,
        rule ∈ s.ruleStack) :
    wp (do
        let s ← get
        step (.action s.isMeta out)
        if s.isMeta = .no then popRule else pure ()
        pure true)
      (fun _ => Orderly s) (fun _ _ => True) t := by
  have hdone (u : State) (hsteps : u.steps = t.steps ++ [.action t.isMeta out])
      (hhandle : u.handle = t.handle) (hcached : u.cached = t.cached)
      (hcachedHandle : u.cachedHandle = t.cachedHandle)
      (houtput : u.output = t.output) (hcurr' : u.currHandle = t.currHandle)
      (hstack : u.ruleStack =
        if t.isMeta = .no then t.ruleStack.tail else t.ruleStack) :
      Orderly s u := by
    have hext' : Extends t u := by
      constructor
      · rw [hsteps]
        exact List.prefix_append _ _
      · exact houtput ▸ List.prefix_refl _
    refine ⟨hext.trans hext', fun hs hleft => ?_⟩
    obtain ⟨hcore, hrest⟩ := ht hs (hleft.of_extends hext')
    left
    constructor
    case core =>
      apply hcore.of_eq _ hhandle hcached hcachedHandle houtput
      intro handle cachedHandle hmem
      rw [hsteps] at hmem
      apply hcore.synced
      simpa using hmem
    case linked =>
      rw [hstack]
      intro rule hrule
      obtain ⟨hlink, halive⟩ := hs.linked rule (hrest rule hrule)
      exact ⟨hlink, halive.extends (hext.trans hext')⟩
    case alive =>
      rw [hcurr', hcurr]
      exact hs.alive.extends (hext.trans hext')
  let u : State := { t with steps := t.steps ++ [Step.action t.isMeta out] }
  rw [wp_bind, wp_get, wp_bind]
  by_cases hno : t.isMeta = .no
  · rw [if_pos hno]
    change wp (do popRule; pure true) _ _ u
    rw [wp_bind]
    cases hstack : t.ruleStack with
    | nil =>
        rw [popRule_nil (s := u) hstack]
        trivial
    | cons rule prev =>
        rw [popRule_cons (s := u) hstack]
        refine hdone { u with ruleStack := prev } rfl rfl rfl rfl rfl rfl ?_
        rw [if_pos hno, hstack]
        rfl
  · rw [if_neg hno]
    exact hdone u rfl rfl rfl rfl rfl rfl (if_neg hno).symm

private theorem steady_dumpAction (cfg : Config) (d : Data) (atEnd : Bool) :
    Steady (dumpAction cfg d atEnd) := by
  intro s
  apply wp_dumpAction cfg d atEnd (actingRule_first s) (actingRule_again s)
    (Idle.refl s) (orderly_composes.refl s)
  rintro out t (⟨-, ht⟩ | ⟨-, ht⟩)
  · apply finish_orderly out ht.alike.extends ht.currHandle
    intro hs _
    refine ⟨hs.core.alike ht.alike, fun rule hrule => ?_⟩
    rw [← ht.ruleStack]
    split at hrule
    · exact List.mem_of_mem_tail hrule
    · exact hrule
  · apply finish_orderly out ht.extends_ ht.currHandle
    intro hs hleft
    have hmid := ht.midway hs hleft
    refine ⟨hmid.core, ?_⟩
    rcases hmid.stack with ⟨hyes, hstack⟩ | ⟨hno, rule, -, -, hstack⟩
    · rw [if_neg (by rw [hyes]; decide), hstack]
      exact fun _ h => h
    · rw [if_pos hno, hstack]
      exact fun _ h => h

/-! ## Links -/

/-- The table for the next link has been made. -/
structure Offered (s t : State) : Prop where
  isMeta : t.isMeta ≠ .yes
  steps : t.steps = s.steps
  handle : t.handle = s.handle
  cachedHandle : t.cachedHandle = s.cachedHandle
  currHandle : t.currHandle = s.currHandle
  ruleStack : t.ruleStack = s.ruleStack
  output : s.output <+: t.output
  table : s.cached = true → ∃ table : Line, table.tables = [] ∧
    table.created = some s.cachedHandle ∧ t.output = s.output ++ [table]

private theorem cachedHash_offers (s : State) :
    wp cachedHash (fun _ t => Offered s t) (fun _ _ => True) s := by
  unfold cachedHash
  rw [wp_bind, wp_get, wp_ite, wp_ite]
  refine ⟨fun _ => trivial, fun hno => ⟨fun _ => ?_, fun hcached => ?_⟩⟩
  · refine ⟨?_, rfl, rfl, rfl, rfl, rfl, List.prefix_append _ _,
      fun _ => ⟨_, ?_, ?_, rfl⟩⟩
    · change (if s.isMeta = .undecided then IsMeta.no else s.isMeta) ≠ .yes
      split
      · exact nofun
      · exact hno
    · rfl
    · rfl
  · exact ⟨hno, rfl, rfl, rfl, rfl, rfl, List.prefix_refl _,
      fun hs => absurd hs hcached⟩

/-- The rule that will link to the table is being printed. -/
structure Linking (s t : State) : Prop where
  steps : t.steps = s.steps
  handle : t.handle = s.handle
  cachedHandle : t.cachedHandle = s.cachedHandle
  ruleStack : ∃ rule, t.ruleStack = rule :: s.ruleStack ∧
    rule.handle = s.currHandle
  output : s.output <+: t.output
  table : s.cached = true → ∃ table : Line, table.tables = [] ∧
    table.created = some s.cachedHandle ∧ t.output = s.output ++ [table]
  line : ∃ line : Line, t.line = some line ∧ line.selector =
    .u32 (if s.currHandle.htid = u32Root then none else some s.currHandle)

private theorem linking_dumpMatch {s t : State} (h : Offered s t) :
    wp dumpMatch (fun _ u => Linking s u) (fun _ _ => True) t := by
  unfold dumpMatch
  rw [wp_bind]
  apply wp_mono (syncMeta_alike t) _ (fun _ _ h => h.elim)
  intro _ u ⟨htu, hstack, _, hno⟩
  rw [wp_bind, wp_get, wp_ite]
  refine ⟨fun hyes => absurd hyes (hno h.isMeta), fun _ => ?_⟩
  dsimp only
  rw [wp_bind, wp_modify]
  let tests : List Match :=
    if u.keys = [] then [⟨32, 0, 0, 0⟩] else u.keys.map Key.toMatch
  let rule : Rule := ⟨u.currHandle, tests, 0, 0, 0, 0, 0⟩
  let v : State := { u with ruleStack := rule :: u.ruleStack }
  change wp (dumpRule rule u.currHandle) _ _ v
  obtain ⟨line, hselector, hunlinked, -⟩ := dumpRule_spec rule u.currHandle v
  obtain ⟨-, hrun⟩ := hunlinked rfl
  rw [wp, hrun]
  have hcurr : u.currHandle = s.currHandle := htu.currHandle.trans h.currHandle
  constructor
  case steps => exact htu.steps.trans h.steps
  case handle => exact htu.handle.trans h.handle
  case cachedHandle => exact htu.cachedHandle.trans h.cachedHandle
  case ruleStack =>
    refine ⟨rule, ?_, hcurr⟩
    change rule :: u.ruleStack = _
    rw [hstack, h.ruleStack]
  case output =>
    change s.output <+: u.output
    rw [htu.output]
    exact h.output
  case table =>
    change _ → ∃ table : Line, _ ∧ _ ∧ u.output = _
    rw [htu.output]
    exact h.table
  case line =>
    refine ⟨line, rfl, hselector.trans ?_⟩
    rw [← hcurr]

/-- Other changes to the rule and its line do not matter. -/
private theorem Linking.change {s t : State} (h : Linking s t)
    {f : Rule → Rule} {g : Line → Line}
    (hf : ∀ rule, (f rule).handle = rule.handle)
    (hg : ∀ line, (g line).selector = line.selector) :
    Linking s { t with
      ruleStack := t.ruleStack.modifyHead f
      line := t.line.map g } where
  steps := h.steps
  handle := h.handle
  cachedHandle := h.cachedHandle
  ruleStack := by
    obtain ⟨rule, hstack, hhandle⟩ := h.ruleStack
    refine ⟨f rule, ?_, (hf rule).trans hhandle⟩
    rw [hstack]
    rfl
  output := h.output
  table := h.table
  line := by
    obtain ⟨line, hline, hselector⟩ := h.line
    refine ⟨g line, ?_, (hg line).trans hselector⟩
    rw [hline]
    rfl

private theorem linking_dumpOffsetRule {s t : State} (h : Linking s t)
    (off : Data) :
    wp (dumpOffsetRule off) (fun _ u => Linking s u) (fun _ _ => True) t := by
  unfold dumpOffsetRule
  rw [wp_ite, wp_ite, wp_ite]
  refine ⟨fun _ => ?_, fun _ => ⟨fun _ => trivial, fun _ =>
    ⟨fun _ => trivial, fun _ => ?_⟩⟩⟩
  · rw [wp_bind, wp_lift]
    refine ⟨fun (offset, mask, shift) _ => ?_, fun _ _ => trivial⟩
    exact h.change (f := fun rule => { rule with offset, mask, shift })
      (g := fun line => { line with offsetAt := some (offset, mask, shift) })
      (fun _ => rfl) fun _ => rfl
  · exact h.change (f := fun rule => { rule with plus := off.unumValue })
      (g := fun line => { line with plus := some off.unumValue })
      (fun _ => rfl) fun _ => rfl

/-- The rule links to the table. -/
structure Linked (s : State) (next : Handle) (t : State) : Prop where
  extends_ : Extends s t
  ready : Ready s → t.HandlesLeft → ReadyAt next t ∨ Broken t
  key : Ready s → t.HandlesLeft → next.key = 0

/-- What remains of `__dump_link` to know. -/
private theorem Linking.linked {s t u : State} (h : Linking s t)
    {next : Handle} (line : Line) (hnext : next = s.handle + 0x100000)
    (hsteps : u.steps = s.steps ++
      [.link s.handle s.cachedHandle, .newHandle s.handle])
    (hhandle : u.handle = next) (hcached : u.cached = true)
    (hcachedHandle : u.cachedHandle = next + 0x100000)
    (hstack : ∃ rule, u.ruleStack = rule :: s.ruleStack ∧
      rule.handle = s.currHandle ∧ rule.link = next)
    (houtput : u.output = t.output ++ [line])
    (hlink : line.link = some next.htid) (hselector : line.selector =
      .u32 (if s.currHandle.htid = u32Root then none else some s.currHandle)) :
    Linked s next u := by
  have hext : Extends s u := by
    constructor
    · rw [hsteps]
      exact List.prefix_append _ _
    · rw [houtput]
      exact h.output.trans (List.prefix_append _ _)
  have hroom (hleft : u.HandlesLeft) :
      s.handle.toNat + 2 ^ 20 < u32Root.toNat := by
    apply hleft
    rw [hsteps]
    simp
  have hnat (hleft : u.HandlesLeft) :
      next.toNat = s.handle.toNat + 2 ^ 20 := by
    rw [hnext]
    exact Handle.next_toNat (hroom hleft)
  constructor
  case extends_ => exact hext
  case key =>
    intro hs hleft
    apply BitVec.eq_of_toNat_eq
    have := hs.core.handle.1
    rw [Handle.key_toNat, hnat hleft]
    change _ = 0
    omega
  case ready =>
    intro hs hleft
    have hmod := hs.core.handle.1
    have hroom := hroom hleft
    have hnat := hnat hleft
    have hself : next.htid = next := Handle.htid_eq_self (by omega)
    obtain ⟨table, htables, htable, ht⟩ := h.table hs.core.cached
    have hlinked : next ∈ line.tables := by
      rw [Line.tables, hlink, hself]
      simp
    by_cases hsync : s.cachedHandle = next
    · left
      let v : State := { s with
        steps := s.steps ++ [Step.newHandle s.handle]
        handle := next
        output := s.output ++ [table] }
      have hv : Core v := by
        have hoffered : table.created = some v.handle := by
          rw [htable, hsync]
        refine hs.core.addTable (t := v) ?_ rfl hnext rfl rfl rfl hoffered
          htables
        intro handle hmem
        apply hleft
        rw [hsteps]
        simp only [v, List.mem_append, List.mem_singleton] at hmem
        rcases hmem with hmem | hmem
        · exact List.mem_append_left _ hmem
        · simp [hmem]
      have hnew : next ∈ createdTables v.output := by
        rw [createdTables_append]
        apply List.mem_append_right
        simp [createdTables, htable, hsync]
      let w : State := { v with output := v.output ++ [line] }
      have hw : Core w := by
        refine hv.addLine (t := w) rfl rfl rfl rfl rfl ?_ ?_
        · simp [Line.created, hselector]
        · intro table' hmem hroot
          rcases Line.mem_tables hselector hmem with rfl | hmem
          · rw [createdTables_append]
            exact List.mem_append_left _ (hs.alive.resolve_left hroot)
          · rw [hlink, hself] at hmem
            cases hmem
            exact hnew
      have houtput' : u.output = v.output ++ [line] := by
        rw [houtput, ht]
      constructor
      case core =>
        constructor
        case synced =>
          intro handle cachedHandle hmem
          rw [hsteps, List.mem_append] at hmem
          rcases hmem with hmem | hmem
          · exact hs.core.synced handle cachedHandle hmem
          · simp only [List.mem_cons, Step.link.injEq, reduceCtorEq,
              List.not_mem_nil, or_false] at hmem
            obtain ⟨rfl, rfl⟩ := hmem
            exact hsync.trans hnext
        case handle => exact hhandle ▸ hw.handle
        case cachedHandle =>
          have hafter : (next + 0x100000).toNat = next.toNat + 2 ^ 20 := by
            have hroot : u32Root.toNat = 0xFFF00000 := rfl
            rw [BitVec.toNat_add]
            simp
            omega
          rw [hcachedHandle, hhandle, hafter]
          omega
        case cached => exact hcached
        case nodup => exact houtput' ▸ hw.nodup
        case range =>
          rw [houtput', hhandle]
          exact hw.range
        case tables => exact houtput' ▸ hw.tables
      case linked =>
        obtain ⟨rule, hrules, hrule, hruleLink⟩ := hstack
        rw [hrules]
        intro r hr
        rcases List.mem_cons.mp hr with rfl | hr
        · rw [hruleLink, hrule]
          refine ⟨fun hzero => ?_, hs.alive.extends hext⟩
          rw [hzero] at hnat
          change 0 = _ at hnat
          omega
        · exact ⟨(hs.linked r hr).1, (hs.linked r hr).2.extends hext⟩
      case alive =>
        right
        rw [hself, houtput', createdTables_append]
        exact List.mem_append_left _ hnew
    · right
      constructor
      case unsynced =>
        intro hsynced
        apply hsync
        rw [hnext]
        apply hsynced
        rw [hsteps]
        simp
      case tables =>
        -- all tables are below the one linked to
        intro htables'
        have hone := htables' t.output line [] houtput next hlinked
          (by intro heq; rw [heq] at hnat; omega)
        have hmem : next ∈ createdTables t.output := by
          apply List.count_pos_iff.mp
          omega
        rw [ht, createdTables_append, List.mem_append] at hmem
        rcases hmem with hmem | hmem
        · have := (hs.core.range next hmem).2
          omega
        · simp only [createdTables, List.filterMap_cons, htable,
            List.filterMap_nil, List.mem_singleton] at hmem
          exact hsync hmem.symm

private theorem linking_dumpLinkRule {s t : State} (h : Linking s t) :
    wp dumpLinkRule (fun next u => Linked s next u) (fun _ _ => True) t := by
  obtain ⟨line, hline, hselector⟩ := h.line
  obtain ⟨rule, hstack, hrule⟩ := h.ruleStack
  unfold dumpLinkRule step changeRule tcMore nextHash
  simp only [wp_bind, wp_get, wp_modify, wp_newHandle, wp_tcNl, wp_pure]
  generalize hnext : t.handle + 0x100000 = next
  apply h.linked { line with link := some next.htid }
  · rw [← hnext, h.handle]
  · simp only [h.steps, h.handle, h.cachedHandle, List.append_assoc,
      List.cons_append, List.nil_append]
  · rfl
  · rfl
  · rfl
  · refine ⟨{ rule with link := next }, ?_, hrule, rfl⟩
    rw [hstack]
    rfl
  · rw [hline]
    rfl
  · rfl
  · exact hselector

/-! ## The emitter -/

private theorem steady_modify {f : State → State} (h : ∀ s, Alike s (f s))
    (hstack : ∀ s, (f s).ruleStack = s.ruleStack) : Steady (modify f) :=
  fun s => (h s).orderly (hstack s)

private theorem steady_pure {α : Type} (a : α) : Steady (pure a) :=
  .pure orderly_composes a

private theorem steady_popRule : Steady popRule := by
  intro s
  cases hstack : s.ruleStack with
  | nil =>
      rw [popRule_nil hstack]
      trivial
  | cons rule prev =>
      rw [popRule_cons hstack]
      have hext : Extends s { s with ruleStack := prev } :=
        ⟨List.prefix_refl _, List.prefix_refl _⟩
      refine ⟨hext, fun hs _ => .inl ?_⟩
      refine ⟨hs.core.of_eq hs.core.synced rfl rfl rfl rfl, fun r hr => ?_,
        hs.alive⟩
      exact hs.linked r (hstack ▸ List.mem_cons_of_mem _ hr)

private theorem steady_setMeta (offset value : BitVec 32) :
    Steady (setMeta offset value) := by
  apply steady_bind (Idles.steady idle_get)
  intro s
  refine Relates.ite (fun _ => steady_throw _) fun _ => ?_
  refine Relates.ite (fun _ => ?_) fun _ => ?_
  · exact Relates.ite (fun _ => steady_throw _) fun _ => steady_pure _
  · refine steady_bind (steady_modify
      (fun _ => ⟨rfl, rfl, rfl, rfl, rfl, rfl⟩) fun _ => rfl) fun _ => ?_
    refine Relates.ite (fun _ => steady_throw _) fun _ => ?_
    exact steady_bind (steady_modify
      (fun _ => ⟨rfl, rfl, rfl, rfl, rfl, rfl⟩) fun _ => rfl) fun _ =>
        steady_pure _

private theorem steady_dumpMetaEq (d b : Data) : Steady (dumpMetaEq d b) := by
  unfold dumpMetaEq
  split
  · exact steady_throw _
  · refine Relates.ite (fun _ => ?_) fun _ => ?_
    · apply steady_bind (Idles.steady idle_get)
      intro s
      split
      · exact steady_pure _
      · exact steady_pure _
    · exact Relates.ite (fun _ => steady_setMeta _ _) fun _ => steady_throw _

private theorem steady_dumpPacketEq (a b : Data) :
    Steady (dumpPacketEq a b) := by
  have hkeys (constant var : Data) (keys : List Key)
      {rest : Bool × List Key → Emit Bool}
      (hrest : ∀ found, Steady (rest found)) :
      Steady (lift (dumpEq constant var keys) >>= rest) :=
    steady_bind (Idles.steady (idle_lift (clean_dumpEq _ _ _))) hrest
  have hset (useful : Bool) (keys : List Key) :
      Steady (do
        modify fun s => { s with keys }
        pure useful) :=
    steady_bind (steady_modify
      (fun _ => ⟨rfl, rfl, rfl, rfl, rfl, rfl⟩) fun _ => rfl) fun _ =>
        steady_pure _
  apply steady_bind (Idles.steady idle_get)
  intro s
  refine Relates.ite (fun _ => steady_throw _) fun _ => ?_
  refine steady_bind (steady_modify
    (fun _ => ⟨rfl, rfl, rfl, rfl, rfl, rfl⟩) fun _ => rfl) fun _ => ?_
  refine Relates.ite (fun _ => hkeys _ _ _ fun found => hset _ _) fun _ => ?_
  exact Relates.ite (fun _ => hkeys _ _ _ fun found => hset _ _) fun _ =>
    steady_throw _

/-- The same for a program that numbers `n` rules of a table from `h` on. -/
structure OrderlyAt (h : Handle) (n : Nat) (s t : State) : Prop where
  extends_ : Extends s t
  ready : h.key.toNat + n < 2 ^ 20 → ReadyAt h s → t.HandlesLeft →
    Ready t ∨ Broken t

private theorem Orderly.before {s t u : State} {h : Handle} {n : Nat}
    (hst : Orderly s t) (htu : OrderlyAt h n t u) (hcurr : s.currHandle = h) :
    OrderlyAt h n s u where
  extends_ := hst.extends_.trans htu.extends_
  ready hkey hs hleft := by
    subst hcurr
    rcases hst.ready hs (hleft.of_extends htu.extends_) with ht | ht
    · exact htu.ready hkey
        ⟨ht.core, ht.linked, hs.alive.extends hst.extends_⟩ hleft
    · exact .inr (ht.extends htu.extends_)

private theorem Orderly.at_ {s t : State} {h : Handle} {n : Nat}
    (hst : Orderly s t) (hcurr : s.currHandle = h) : OrderlyAt h n s t where
  extends_ := hst.extends_
  ready _ hs hleft := by
    subst hcurr
    exact hst.ready hs hleft

private theorem OrderlyAt.begins {s u : State} {h : Handle} {n m : Nat}
    (hu : OrderlyAt (h + 1) n { s with
      currHandle := h + 1
      keys := []
      isMeta := .undecided } u) (hm : n < m) : OrderlyAt h m s u where
  extends_ := ⟨hu.extends_.steps, hu.extends_.output⟩
  ready hkey hs hleft := by
    obtain ⟨hhtid, hsucc⟩ := Handle.htid_succ (h := h) (by omega)
    refine hu.ready (by omega) ⟨?_, hs.linked, ?_⟩ hleft
    · exact hs.core.of_eq hs.core.synced rfl rfl rfl rfl
    · rw [Alive, hhtid]
      exact hs.alive

/-- Behind a link there is a new table, whose rule is popped at last. -/
private theorem linked_orderly {s t : State} {next : Handle} {n : Nat}
    (h : Linked s next t) (hn : n < 2 ^ 20) {α β : Type} {x : Emit α}
    (hx : Relates x (OrderlyAt next n) fun _ _ _ => True) (b : β) :
    wp (do let _ ← x; popRule; pure b) (fun _ => Orderly s) (fun _ _ => True)
      t := by
  rw [wp_bind]
  apply wp_mono (hx t) _ (fun _ _ h => h)
  intro _ u htu
  rw [wp_bind]
  apply wp_mono (steady_popRule u) _ (fun _ _ h => h)
  intro _ v huv
  refine ⟨(h.extends_.trans htu.extends_).trans huv.extends_,
    fun hs hleft => ?_⟩
  have hleft' := hleft.of_extends huv.extends_
  have hleft'' := hleft'.of_extends htu.extends_
  have hu : Ready u ∨ Broken u := by
    rcases h.ready hs hleft'' with ht | ht
    · apply htu.ready _ ht hleft'
      rw [h.key hs hleft'']
      change 0 + n < _
      omega
    · exact .inr (ht.extends htu.extends_)
  rcases hu with hu | hu
  · exact huv.ready hu hleft
  · exact .inr (hu.extends huv.extends_)

section

variable (cfg : Config)

mutual

private theorem steady_dumpOther (d : Data) (currHandle : Handle)
    (atEnd : Bool) (fieldRoot : Nat) (hsize : d.size < 2 ^ 20) :
    Steady (dumpOther cfg d currHandle atEnd fieldRoot) := by
  unfold dumpOther
  generalize hd : d = d'
  split
  · exact steady_throw _
  · exact steady_pure _
  · exact steady_throw _
  · rename_i t a b c
    intro s
    rw [wp_bind]
    apply wp_mono (cachedHash_offers s) _ (fun _ _ h => h)
    intro _ s₁ h₁
    rw [wp_bind]
    apply wp_mono (linking_dumpMatch h₁) _ (fun _ _ h => h)
    intro _ s₂ h₂
    rw [wp_bind]
    apply wp_mono (linking_dumpLinkRule h₂) _ (fun _ _ h => h)
    intro next s₃ h₃
    exact linked_orderly h₃ (hd ▸ hsize)
      (orderly_dumpOr _ next atEnd fieldRoot false (hd ▸ hsize)) _
  · apply steady_dumpAnd
    subst hd
    simp only [Data.size] at hsize
    omega
  · rename_i t a b c
    intro s
    have hsize' : a.size < 2 ^ 20 := by
      subst hd
      simp only [Data.size] at hsize
      omega
    rw [wp_bind]
    apply wp_mono (cachedHash_offers s) _ (fun _ _ h => h)
    intro _ s₁ h₁
    rw [wp_bind]
    apply wp_mono (linking_dumpMatch h₁) _ (fun _ _ h => h)
    intro _ s₂ h₂
    rw [wp_bind]
    apply wp_mono (linking_dumpOffsetRule h₂ _) _ (fun _ _ h => h)
    intro _ s₃ h₃
    rw [wp_bind]
    apply wp_mono (linking_dumpLinkRule h₃) _ (fun _ _ h => h)
    intro next s₄ h₄
    exact linked_orderly h₄ hsize'
      (orderly_dumpOr _ next atEnd fieldRoot false hsize') _
  · refine Relates.ite (fun _ => steady_dumpMetaEq _ _) fun _ => ?_
    exact Relates.ite (fun _ => steady_throw _) fun _ =>
      steady_dumpPacketEq _ _
  · exact steady_throw _
termination_by (d.size, if isLogicalOr d then 2 else 0)
decreasing_by
  all_goals subst hd
  all_goals first
    | exact .right _ (by simp [isLogicalOr])
    | exact .left _ _ (by simp only [Data.size]; omega)

private theorem steady_dumpAndLoop (d : Data) (currHandle : Handle)
    (atEnd : Bool) (fieldRoot : Nat) (hsize : d.size < 2 ^ 20) :
    Steady (dumpAndLoop cfg d currHandle atEnd fieldRoot) := by
  unfold dumpAndLoop
  generalize hd : d = d'
  split
  · rename_i t a b c
    have hsizes : a.size < 2 ^ 20 ∧ b.size < 2 ^ 20 := by
      subst hd
      simp only [Data.size] at hsize
      omega
    refine Relates.ite (fun _ => steady_throw _) fun _ => ?_
    apply steady_bind (steady_dumpAction _ _ _)
    intro this
    refine Relates.ite (fun _ => steady_pure _) fun _ => ?_
    apply steady_bind (steady_dumpAction _ _ _)
    intro this
    refine Relates.ite (fun _ => steady_pure _) fun _ => ?_
    apply steady_bind (steady_dumpOther _ _ _ _ hsizes.1)
    intro this
    exact Relates.ite (fun _ => steady_dumpAndLoop _ _ _ _ hsizes.2) fun _ =>
      steady_pure _
  · apply steady_bind (steady_dumpAction _ _ _)
    intro this
    exact Relates.ite (fun _ => steady_pure _) fun _ =>
      steady_dumpOther _ _ _ _ (hd ▸ hsize)
termination_by (d.size, if isLogicalOr d then 3 else 1)
decreasing_by
  · subst hd
    exact .left _ _ (by simp only [Data.size]; omega)
  · subst hd
    exact .left _ _ (by simp only [Data.size]; omega)
  · exact .right _ (by split <;> decide)

private theorem steady_dumpAnd (d : Data) (currHandle : Handle) (atEnd : Bool)
    (fieldRoot : Nat) (hsize : d.size < 2 ^ 20) :
    Steady (dumpAnd cfg d currHandle atEnd fieldRoot) := by
  unfold dumpAnd
  split
  · exact steady_throw _
  · exact steady_dumpAndLoop _ _ _ _ hsize
termination_by (d.size, if isLogicalOr d then 0 else 2)
decreasing_by
  rename_i h
  exact .right _ (by rw [if_neg h, if_neg h]; decide)

private theorem orderly_dumpOr (d : Data) (currHandle : Handle) (atEnd : Bool)
    (fieldRoot : Nat) (useful : Bool) (hsize : d.size < 2 ^ 20) :
    Relates (dumpOr cfg d currHandle atEnd fieldRoot useful)
      (OrderlyAt currHandle d.size) fun _ _ _ => True := by
  unfold dumpOr
  intro s
  have hpos : 0 < d.size := by
    cases d <;> simp only [Data.size] <;> omega
  dsimp only
  rw [wp_bind, beginMatch, wp_modify, wp_bind]
  apply wp_mono (steady_dumpAction _ _ _ _) _ (fun _ _ h => h)
  intro this t ht
  rw [wp_ite]
  refine ⟨fun _ => (ht.at_ (n := 0) rfl).begins hpos, fun _ => ?_⟩
  generalize hd : d = d'
  split
  · rename_i a b c
    have hsizes : a.size < 2 ^ 20 ∧ b.size < 2 ^ 20 := by
      subst hd
      simp only [Data.size] at hsize
      omega
    rw [wp_bind]
    apply wp_mono (steady_dumpAnd _ _ _ _ hsizes.1 t) _ (fun _ _ h => h)
    intro this u hu
    apply wp_mono (orderly_dumpOr b _ _ _ _ hsizes.2 u) _ (fun _ _ h => h)
    intro _ v hv
    apply OrderlyAt.begins (n := b.size)
    · exact (orderly_composes.trans ht hu).before hv rfl
    · simp only [Data.size]
      omega
  · rw [wp_bind]
    apply wp_mono (steady_dumpAnd _ _ _ _ (hd ▸ hsize) t) _ (fun _ _ h => h)
    intro this u hu
    exact ((orderly_composes.trans ht hu).at_ (n := 0) rfl).begins (hd ▸ hpos)
termination_by (d.size, if isLogicalOr d then 1 else 3)
decreasing_by
  · subst hd
    exact .left _ _ (by simp only [Data.size]; omega)
  · subst hd
    exact .left _ _ (by simp only [Data.size]; omega)
  · exact .right _ (by split <;> decide)

end

end

/-! ## Passes -/

/-- All is well with the tables, but for the one made in advance. -/
structure Resting (s : State) : Prop where
  synced : s.Synced
  handle : s.handle.toNat % 2 ^ 20 = 0 ∧ s.handle.toNat < u32Root.toNat
  nodup : (createdTables s.output).Nodup
  range : ∀ table ∈ createdTables s.output,
    0 < table.toNat ∧ table.toNat ≤ s.handle.toNat
  tables : TablesCreated s.output
  linked : ∀ rule ∈ s.ruleStack, rule.link ≠ 0 ∧ Alive s rule.handle

/-- A pass, or several. -/
structure Passed (s t : State) : Prop where
  extends_ : Extends s t
  resting : Resting s → t.HandlesLeft → Resting t ∨ Broken t

private theorem Ready.resting {s : State} (h : Ready s) : Resting s :=
  ⟨h.core.synced, h.core.handle, h.core.nodup, h.core.range, h.core.tables,
    h.linked⟩

private theorem passed_composes :
    Composes Passed fun (_ : Error) _ _ => True where
  refl s := ⟨.refl s, fun h _ => .inl h⟩
  trans := by
    intro s t u hst htu
    refine ⟨hst.extends_.trans htu.extends_, fun hs hu => ?_⟩
    rcases hst.resting hs (hu.of_extends htu.extends_) with ht | ht
    · exact htu.resting ht hu
    · exact .inr (ht.extends htu.extends_)
  fails _ _ := trivial

/-- At the beginning of a pass, the next table is the one after the last. -/
private theorem Resting.readyAt {s t : State} (h : Resting s)
    (hsteps : t.steps = s.steps) (hhandle : t.handle = s.handle)
    (hcached : t.cached = true) (hcachedHandle : t.cachedHandle =
      s.handle + 0x100000) (houtput : t.output = s.output)
    (hstack : t.ruleStack = s.ruleStack) : ReadyAt u32Root t := by
  have hnext : (s.handle + 0x100000).toNat = s.handle.toNat + 2 ^ 20 := by
    have hroot : u32Root.toNat = 0xFFF00000 := rfl
    have := h.handle
    rw [BitVec.toNat_add]
    simp
    omega
  refine ⟨⟨?_, hhandle ▸ h.handle, ?_, hcached, houtput ▸ h.nodup, ?_,
    houtput ▸ h.tables⟩, ?_, .inl rfl⟩
  · rw [State.Synced, hsteps]
    exact h.synced
  · have := h.handle
    rw [hcachedHandle, hnext, hhandle]
    omega
  · rw [houtput, hhandle]
    exact h.range
  · have hext : Extends s t := ⟨hsteps ▸ List.prefix_refl _,
      houtput ▸ List.prefix_refl _⟩
    rw [hstack]
    exact fun rule hrule => ⟨(h.linked rule hrule).1,
      (h.linked rule hrule).2.extends hext⟩

private theorem Resting.next {s t : State} (h : Resting s)
    (hleft : t.HandlesLeft) (hsteps : t.steps = s.steps ++ [.newHandle s.handle])
    (hhandle : t.handle = s.handle + 0x100000) (houtput : t.output = s.output)
    (hstack : t.ruleStack = s.ruleStack) : Resting t := by
  have hroom : s.handle.toNat + 2 ^ 20 < u32Root.toNat := by
    apply hleft
    rw [hsteps]
    simp
  have hnext : t.handle.toNat = s.handle.toNat + 2 ^ 20 := by
    rw [hhandle]
    exact Handle.next_toNat hroom
  have hmod := h.handle.1
  constructor
  case synced =>
    intro handle cachedHandle hmem
    rw [hsteps] at hmem
    apply h.synced
    simpa using hmem
  case handle => exact ⟨by omega, by omega⟩
  case nodup => exact houtput ▸ h.nodup
  case range =>
    rw [houtput, hnext]
    intro table hmem
    have hrange := h.range table hmem
    exact ⟨hrange.1, by omega⟩
  case tables => exact houtput ▸ h.tables
  case linked =>
    have hext : Extends s t :=
      ⟨hsteps ▸ List.prefix_append _ _, houtput ▸ List.prefix_refl _⟩
    rw [hstack]
    exact fun rule hrule => ⟨(h.linked rule hrule).1,
      (h.linked rule hrule).2.extends hext⟩

private theorem passed_newHandle :
    Relates newHandle Passed fun _ _ _ => True := by
  intro s
  rw [wp_newHandle]
  refine ⟨⟨List.prefix_append _ _, List.prefix_refl _⟩, fun hs hleft => ?_⟩
  exact .inl (hs.next hleft rfl rfl rfl rfl)

section

variable (cfg : Config) {d : Data} (hsize : d.size < 2 ^ 20)

include hsize

private theorem passed_dumpPass (protocol : Option (BitVec 16)) :
    Relates (dumpPass cfg d protocol) Passed fun _ _ _ => True := by
  intro s
  unfold dumpPass nextHash
  rw [wp_bind, wp_modify, wp_bind, wp_modify, wp_bind]
  apply wp_mono (orderly_dumpOr cfg d u32Root true 0 false hsize _) _
    (fun _ _ h => h)
  intro _ t ht
  refine ⟨⟨ht.extends_.steps, ht.extends_.output⟩, fun hs hleft => ?_⟩
  have hready := hs.readyAt (t := { s with
    protocol
    lastMeta := .undecided
    cachedProtocol := protocol.getD ethPAll
    cachedHandle := s.handle + 0x100000
    cached := true }) rfl rfl rfl rfl rfl rfl
  have hkey : u32Root.key.toNat + d.size < 2 ^ 20 := by
    have hzero : u32Root.key.toNat = 0 := rfl
    omega
  rcases ht.ready hkey hready hleft with ht | ht
  · exact .inl (Ready.resting ht)
  · exact .inr ht

private theorem passed_dumpPasses (protocols : List (BitVec 16)) :
    Relates (dumpPasses cfg d protocols) Passed fun _ _ _ => True := by
  induction protocols with
  | nil => exact passed_dumpPass cfg hsize none
  | cons protocol protocols ih =>
      apply Relates.bind passed_composes (passed_dumpPass cfg hsize _)
      intro _
      refine Relates.bind passed_composes ?_ fun _ => ?_
      · intro s
        have hext : Extends s { s with prioOffset := s.prioOffset + 1 } :=
          ⟨List.prefix_refl _, List.prefix_refl _⟩
        refine ⟨hext, fun hs _ => .inl ?_⟩
        exact ⟨hs.synced, hs.handle, hs.nodup, hs.range, hs.tables, hs.linked⟩
      · exact Relates.bind passed_composes passed_newHandle fun _ => ih

end

/-- The tables are made before their rules exactly if none is made for a rule
issued again between one link and the next. -/
theorem dumpPasses_tablesCreated_iff (cfg : Config) (d : Data)
    (protocols : List (BitVec 16)) {t : State}
    (hrun : dumpPasses cfg d protocols .start = (.ok (), t))
    (hsize : d.size < 2 ^ 20) (hleft : t.HandlesLeft) :
    TablesCreated t.output ↔ t.Synced := by
  have hstart : Resting .start :=
    ⟨fun _ _ h => (List.not_mem_nil h).elim, by decide, List.nodup_nil,
      fun _ h => (List.not_mem_nil h).elim, tablesCreated_nil,
      fun _ h => (List.not_mem_nil h).elim⟩
  have hpassed := wp_ok hrun (passed_dumpPasses cfg hsize protocols .start)
  rcases hpassed.resting hstart hleft with hrest | hbroken
  · exact ⟨fun _ => hrest.synced, fun _ => hrest.tables⟩
  · exact ⟨fun h => absurd h hbroken.tables,
      fun h => absurd h hbroken.unsynced⟩

/-- A meter or another action behind an offset, and a drop behind another
one. -/
def offsetRules (meter : Data) : Data :=
  .logicalOr (.op .offset .unum meter (.unum 4) .none)
    (.op .offset .unum (.decision .drDrop) (.unum 8) .none)

theorem dumpPasses_tablesCreated_iff_drop :
    TablesCreated (dumpPasses plainConfig (offsetRules (.decision .drDrop)) []
        .start).2.output ↔
      (dumpPasses plainConfig (offsetRules (.decision .drDrop)) []
        .start).2.Synced := by
  have hdrop : addActions (.decision .drDrop) .none .none = .ok .drop := by
    simp [addActions, makeLeaf]
  have hrun : (dumpPasses plainConfig (offsetRules (.decision .drDrop)) []
        .start).1 = .ok () ∧
      (dumpPasses plainConfig (offsetRules (.decision .drDrop)) []
        .start).2.steps =
          [.link 0 0x100000, .newHandle 0, .action .no "Ddd".toList,
            .link 0x100000 0x200000, .newHandle 0x100000,
            .action .no "Ddd".toList] := by
    simp only [offsetRules, dumpPasses, dumpPass, dumpOr, dumpAnd, dumpAndLoop,
      dumpOther, dumpAction, ActionDb.getAction, hdrop]
    decide +kernel
  apply dumpPasses_tablesCreated_iff plainConfig
    (offsetRules (.decision .drDrop)) []
  · rw [← hrun.1]
  · decide
  · intro handle hmem
    rw [hrun.2] at hmem
    simp only [List.mem_cons, Step.newHandle.injEq, reduceCtorEq,
      List.not_mem_nil, or_false, false_or] at hmem
    rcases hmem with rfl | rfl <;> decide

/-- Rules are issued again for packets that do not conform. -/
def meteredDrop : Data :=
  offsetRules
    (.logicalOr
      (.logicalAnd (.conform 0)
        (.logicalAnd (.count 0) (.decision (.drClass 1))))
      (.decision (.drClass 2)))

theorem meteredDrop_uncreated :
    (dumpPasses plainConfig meteredDrop [] .start).1 = .ok () ∧
      ¬TablesCreated (dumpPasses plainConfig meteredDrop [] .start).2.output := by
  have hmeter : addActions
      (.logicalOr
        (.logicalAnd (.conform 0)
          (.logicalAnd (.count 0) (.decision (.drClass 1))))
        (.decision (.drClass 2))) .none .none =
      .ok (.conform 0 (.class 2) (.count 0 (.class 1))) := by
    simp [addActions, makeLeaf]
    rfl
  have hdrop : addActions (.decision .drDrop) .none .none = .ok .drop := by
    simp [addActions, makeLeaf]
  have hrun : (dumpPasses plainConfig meteredDrop [] .start).1 = .ok () ∧
      createdTables
          ((dumpPasses plainConfig meteredDrop [] .start).2.output.take 7) =
        [0x100000, 0x200000, 0x200000] ∧
      (dumpPasses plainConfig meteredDrop [] .start).2.output[7]?.map
        Line.tables = some [0x300000] := by
    simp only [meteredDrop, offsetRules, dumpPasses, dumpPass, dumpOr, dumpAnd,
      dumpAndLoop, dumpOther, dumpAction, ActionDb.getAction, hmeter, hdrop]
    decide +kernel
  obtain ⟨hok, hbefore, htables⟩ := hrun
  refine ⟨hok, fun hcreated => ?_⟩
  obtain ⟨line, hline, htables⟩ := Option.map_eq_some_iff.mp htables
  obtain ⟨hlength, hline⟩ := List.getElem?_eq_some_iff.mp hline
  have hone := (tablesCreated_iff _).mp hcreated 7 hlength 0x300000
    (by rw [hline, htables]; exact List.mem_singleton_self _) (by decide)
  rw [hbefore] at hone
  exact absurd hone (by decide)

end Tcng.IfU32
