import Tcng.Lib.Program
import Tcng.OpData

/-! What the default expressions of `prio` and `cbq` have in common. -/

namespace Tcng

/-! ## The priority of a packet -/

/-- `default_priomap` of `q_prio.c` -/
def defaultPriomap (prio : Nat) : Nat :=
  [1, 2, 2, 2, 1, 2, 0, 0, 1, 1, 1, 1, 1, 1, 1, 1].getD prio 0

/-- `ip_tos2prio` -/
def ipTos2prio (i : Nat) : Nat :=
  [0, 1, 0, 0, 2, 2, 2, 2, 6, 6, 6, 6, 4, 4, 4, 4].getD i 0

/-- `raw[1] & 0x1e` -/
def tosBits (packet : Packet) : Nat := readBits (packet 0) 8 8 &&& 0x1e

/-- The place of a packet in a table with an entry for each TOS. -/
def tosIndex (packet : Packet) : Nat := tosBits packet / 2

/-- `(raw[1] & 0x1e) == i*2` -/
def tosEq (i : Nat) : Except Error Data := do
  let tos : Data := .op .access .unum (.fieldRoot 0) (.unum 1) (.unum 8)
  let masked ← opBinary .and tos (.unum 0x1e)
  opBinary .eq masked (.unum (BitVec.ofNat 32 (i * 2)))

/-- `(raw[1] & 0x1e) == i*2 && class c` -/
def tosExpr (i : Nat) (c : Class) : Except Error Data := do
  let test ← tosEq i
  opBinary .logicalAnd test (.decision (.drClass c))

theorem tosIndex_lt (packet : Packet) : tosIndex packet < 16 := by
  have hle : tosBits packet ≤ 0x1e := Nat.and_le_right
  rw [tosIndex]
  omega

theorem tosBits_even (packet : Packet) : tosBits packet % 2 = 0 := by
  rw [tosBits, ← Nat.pow_one 2, Nat.and_mod_two_pow]
  simp

theorem tosBits_eq_iff (packet : Packet) (i : Nat) :
    tosBits packet = i * 2 ↔ tosIndex packet = i := by
  have heven := tosBits_even packet
  rw [tosIndex]
  omega

/-- The comparison as it is built. -/
def tosTest (i : Nat) : Data :=
  .eq (.op .and .unum
      (.op .access .unum (.fieldRoot 0) (.unum 1) (.unum 8)) (.unum 0x1e) .none)
    (.unum (BitVec.ofNat 32 (i * 2)))

theorem tosExpr_eq (i : Nat) (c : Class) :
    tosExpr i c = .ok (.logicalAnd (tosTest i) (.decision (.drClass c))) := rfl

theorem tosTest_eval {i : Nat} (hi : i < 16) (env : Env) :
    (tosTest i).eval env .start =
      .truth (decide (tosIndex env.packet = i)) := by
  have hvalue : (BitVec.ofNat 32 (i * 2)).toNat = i * 2 := by
    rw [BitVec.toNat_ofNat]
    omega
  have hnum : (tosTest i).num env.packet .start =
      (tosBits env.packet == i * 2).toNat := by
    simp only [tosTest, Data.num, numOp, relOp, hvalue]
    rfl
  have heval : (tosTest i).eval env .start =
      .truth (decide ((tosTest i).num env.packet .start ≠ 0)) := rfl
  have hplace : (tosBits env.packet == i * 2).toNat ≠ 0 ↔
      tosIndex env.packet = i := by
    rw [← tosBits_eq_iff]
    simp
  rw [heval, hnum, decide_eq_decide.mpr hplace]

/-- The packets of one place in the table go to the class. -/
theorem tosExpr_eval {i : Nat} (hi : i < 16) (c : Class) (env : Env) :
    (Data.logicalAnd (tosTest i) (.decision (.drClass c))).eval env .start =
      if tosIndex env.packet = i then .decide (.drClass c) else .truth false := by
  rw [Data.eval_logicalAnd, Data.eval_decision, tosTest_eval hi]
  by_cases hplace : tosIndex env.packet = i
  · rw [if_pos hplace, decide_eq_true hplace]
    rfl
  · rw [if_neg hplace, decide_eq_false hplace]
    rfl

/-! ## Classes found or made -/

/-- The classes of a qdisc in their order, and the numbers of all classes that
have been allocated, which are those below `next`. -/
structure ClassList where
  classes : List Class
  number : Class → BitVec 32
  next : Class
  allocated : ∀ c ∈ classes, c < next

/-- `make_class`; the class is added to the end of the list. -/
def ClassList.make (s : ClassList) (number : BitVec 32) : ClassList where
  classes := s.classes ++ [s.next]
  number := Function.update s.number s.next number
  next := s.next + 1
  allocated := by
    intro c hc
    rcases List.mem_append.mp hc with hold | hnew
    · exact Nat.lt_succ_of_lt (s.allocated c hold)
    · rw [List.mem_singleton.mp hnew]
      exact Nat.lt_succ_self _

def requireClass (number : BitVec 32) : Program ClassList Error Class := do
  let s ← .get
  match s.classes.find? fun c => s.number c == number with
  | some c => pure c
  | none => do
      .modify fun s => s.make number
      pure s.next

/-- `append_default` -/
def appendDefault (d dflt : Data) : Except Error Data :=
  opBinary .logicalOr d dflt

/-- Classes may have been added. -/
structure ClassList.Extends (s s' : ClassList) : Prop where
  next : s.next ≤ s'.next
  number : ∀ c < s.next, s'.number c = s.number c

theorem ClassList.Extends.refl (s : ClassList) : s.Extends s :=
  ⟨le_refl _, fun _ _ => rfl⟩

theorem ClassList.Extends.trans {s s' s'' : ClassList} (h : s.Extends s')
    (h' : s'.Extends s'') : s.Extends s'' where
  next := h.next.trans h'.next
  number := by
    intro c hc
    rw [h'.number c (lt_of_lt_of_le hc h.next), h.number c hc]

theorem ClassList.Extends.keeps {s s' : ClassList} (h : s.Extends s')
    {classes : List Class} (hclasses : ∀ c ∈ classes, c < s.next) :
    ∀ c ∈ classes, c < s'.next := fun c hc =>
  lt_of_lt_of_le (hclasses c hc) h.next

theorem ClassList.extends_make (s : ClassList) (number : BitVec 32) :
    s.Extends (s.make number) where
  next := Nat.le_succ _
  number := fun _ hc => Function.update_of_ne (Nat.ne_of_lt hc) ..

theorem requireClass_spec (number : BitVec 32) (s : ClassList) :
    Program.wp (requireClass number)
      (fun c s' => s.Extends s' ∧ c < s'.next ∧ s'.number c = number)
      (fun _ _ => False) s := by
  rw [requireClass, Program.wp_bind, Program.wp_get]
  split
  · next c hfound =>
    refine ⟨.refl s, s.allocated c (List.mem_of_find?_eq_some hfound), ?_⟩
    simpa using List.find?_some hfound
  · rw [Program.wp_bind, Program.wp_modify, Program.wp_pure]
    exact ⟨s.extends_make number, Nat.lt_succ_self _, Function.update_self ..⟩

end Tcng
