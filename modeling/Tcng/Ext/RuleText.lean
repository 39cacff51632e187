import Tcng.Ext.ExtractBits

/-! The text of rules is read back as the same tests, and a match holds on a
packet if its tests do. -/

namespace Tcng.IfExt

open Scan

/-! ## Digits -/

theorem hexDigit_spec : ∀ d < 16, isXdigit (hexDigit d) = true ∧
    hexValue (hexDigit d) = d ∧ (hexDigit d = '0' ↔ d = 0) := by decide

theorem nibbles_lt (values : List Bool) {nibble : Nat} (h : nibble < 16) :
    ∀ d ∈ nibbles nibble values, d < 16 := by
  induction values generalizing nibble with
  | nil => simp [nibbles]
  | cons value values ih =>
      have hshift : value.toNat <<< (values.length % 4) < 2 ^ 4 := by
        have hmod := Nat.mod_lt values.length (by decide : 0 < 4)
        have hle := Nat.pow_le_pow_right (by decide : 0 < 2)
          (Nat.le_of_lt_succ hmod)
        have hvalue := Nat.mul_le_mul value.toNat_le hle
        rw [Nat.shiftLeft_eq]
        omega
      have hor := Nat.or_lt_two_pow h hshift
      rw [nibbles]
      split
      · intro d hd
        rcases List.mem_cons.mp hd with rfl | hd
        · exact hor
        · exact ih (by decide) d hd
      · exact ih hor

theorem length_nibbles (values : List Bool) (nibble : Nat) :
    (nibbles nibble values).length = (values.length + 3) / 4 := by
  induction values generalizing nibble with
  | nil => rfl
  | cons value values ih =>
      rw [nibbles]
      split
      · rw [List.length_cons, List.length_cons, ih]
        omega
      · rw [List.length_cons, ih]
        omega

theorem testBit_ofBinary (values : List Bool) {i : Nat}
    (h : i < values.length) :
    (ofBinary values).testBit (values.length - 1 - i) = values[i] := by
  induction values generalizing i with
  | nil => cases h
  | cons value values ih =>
      have hlt := ofBinary_lt values
      rw [ofBinary, Nat.mul_comm, List.length_cons,
        Nat.testBit_two_pow_mul_add _ hlt]
      cases i with
      | zero =>
          rw [if_neg (by omega)]
          cases value <;> simp
      | succ i =>
          have hi := Nat.lt_of_succ_lt_succ h
          have hindex : values.length + 1 - 1 - (i + 1) =
              values.length - 1 - i := by omega
          rw [hindex, if_pos (by omega), ih hi]
          rfl

/-! ## Runs of bits -/

theorem Consecutive.getElem {group offset : Nat} {run : List BitMatch}
    (h : Consecutive group offset run) {i : Nat} (hi : i < run.length) :
    run[i] = ⟨group, offset + i, run[i].value⟩ := by
  induction run generalizing offset i with
  | nil => cases hi
  | cons bit run ih =>
      obtain ⟨hgroup, hoffset, hrun⟩ := h
      cases i with
      | zero =>
          rw [List.getElem_cons_zero, ← hgroup, ← hoffset]
          rfl
      | succ i =>
          rw [List.getElem_cons_succ, ih hrun (Nat.lt_of_succ_lt_succ hi),
            Nat.add_assoc, Nat.add_comm 1 i]

/-- A match is printed for bits one after the other. -/
structure Match.Stands (m : Match) (run : List BitMatch) : Prop where
  nonempty : run ≠ []
  consecutive : Consecutive m.offsetGroup m.offset run
  length : m.length = run.length
  digits : m.digits = nibbles 0 (run.map (·.value))

/-- No bit is lost between the matches. -/
theorem collectBits_stands (bits : List BitMatch) :
    ∃ runs, runs.flatten = bits ∧
      List.Forall₂ Match.Stands (collectBits bits) runs := by
  induction bits using collectBits.induct with
  | case1 => exact ⟨[], rfl, by rw [collectBits]; exact .nil⟩
  | case2 walk bits scan ih =>
      obtain ⟨runs, hruns, hstands⟩ := ih
      have happend := scanBits_append walk.offsetGroup walk.offset bits
      refine ⟨(walk :: scan.1) :: runs, ?_, ?_⟩
      · rw [List.flatten_cons, hruns, List.cons_append]
        exact congrArg (walk :: ·) happend
      · rw [collectBits]
        refine .cons ⟨List.cons_ne_nil _ _,
          ⟨rfl, rfl, consecutive_scanBits _ _ _⟩, rfl, rfl⟩ hstands

theorem stands_of_mem {ms : List Match} {runs : List (List BitMatch)}
    (h : List.Forall₂ Match.Stands ms runs) {m : Match} (hm : m ∈ ms) :
    ∃ run ∈ runs, m.Stands run := by
  induction h with
  | nil => cases hm
  | cons hstand _ ih =>
      rcases List.mem_cons.mp hm with rfl | hm
      · exact ⟨_, List.mem_cons_self, hstand⟩
      · obtain ⟨run, hrun, hstand⟩ := ih hm
        exact ⟨run, List.mem_cons_of_mem _ hrun, hstand⟩

end Tcng.IfExt

namespace Tcng.Ext

open Scan IfExt

/-! ## What is stored -/

theorem storePairs_value (nibbles : List Nat)
    (heven : nibbles.length % 2 = 0) (hlt : ∀ d ∈ nibbles, d < 16)
    (start : Nat) :
    (storePairs nibbles).foldl (fun v b => 256 * v + b.toNat) start =
      nibbles.foldl (fun v d => 16 * v + d) start := by
  induction nibbles using storePairs.induct generalizing start with
  | case1 high low nibbles ih =>
      have hhigh := hlt high (by simp)
      have hlow := hlt low (by simp)
      have hbyte : (BitVec.ofNat 8 (high <<< 4) ||| .ofNat 8 low).toNat =
          16 * high + low := by
        rw [BitVec.toNat_or, BitVec.toNat_ofNat, BitVec.toNat_ofNat,
          Nat.shiftLeft_eq, Nat.mod_eq_of_lt (by omega),
          Nat.mod_eq_of_lt (by omega), Nat.mul_comm,
          ← Nat.two_pow_add_eq_or_of_lt (i := 4) hlow]
      rw [storePairs, List.foldl_cons, List.foldl_cons, List.foldl_cons,
        ih (by rw [← heven, List.length_cons, List.length_cons]; omega)
          (fun d hd => hlt d (by simp [hd])), hbyte]
      congr 1
      omega
  | case2 nibbles hshort =>
      cases nibbles with
      | nil => rfl
      | cons d nibbles =>
          cases nibbles with
          | nil => cases heven
          | cons d' nibbles => exact absurd rfl (hshort d d' nibbles)

theorem length_storePairs (nibbles : List Nat) :
    (storePairs nibbles).length = nibbles.length / 2 := by
  induction nibbles using storePairs.induct with
  | case1 high low nibbles ih =>
      rw [storePairs, List.length_cons, ih, List.length_cons, List.length_cons]
      omega
  | case2 nibbles hshort =>
      cases nibbles with
      | nil => rfl
      | cons d nibbles =>
          cases nibbles with
          | nil => simp [storePairs]
          | cons d' nibbles => exact absurd rfl (hshort d d' nibbles)

theorem storeNibbles_value (nibbles : List Nat) (hlt : ∀ d ∈ nibbles, d < 16) :
    (storeNibbles nibbles).foldl (fun v b => 256 * v + b.toNat) 0 =
      nibbles.foldl (fun v d => 16 * v + d) 0 := by
  unfold storeNibbles
  split
  · next hodd =>
      cases nibbles with
      | nil => rfl
      | cons first nibbles =>
          have hfirst := hlt first List.mem_cons_self
          rw [List.length_cons] at hodd
          rw [List.foldl_cons, List.foldl_cons, BitVec.toNat_ofNat,
            Nat.mod_eq_of_lt (by omega), storePairs_value _ (by omega)
              fun d hd => hlt d (List.mem_cons_of_mem _ hd)]
  · next heven =>
      exact storePairs_value _ (by omega) hlt 0

theorem length_storeNibbles (nibbles : List Nat) :
    (storeNibbles nibbles).length = (nibbles.length + 1) / 2 := by
  unfold storeNibbles
  split
  · cases nibbles with
    | nil => rfl
    | cons first nibbles =>
        rw [List.length_cons, length_storePairs, List.length_cons]
        omega
  · rw [length_storePairs]
    omega

/-- Zeros at the beginning do not change a number. -/
theorem foldl_dropWhile_zero (digits : List Nat) :
    (digits.dropWhile (· = 0)).foldl (fun v d => 16 * v + d) 0 =
      digits.foldl (fun v d => 16 * v + d) 0 := by
  induction digits with
  | nil => rfl
  | cons d digits ih =>
      by_cases hd : d = 0
      · rw [List.dropWhile_cons_of_pos (by simpa using hd), ih, hd]
        rfl
      · rw [List.dropWhile_cons_of_neg (by simpa using hd)]

theorem foldl_replicate_zero (n : Nat) :
    (List.replicate n (0 : BitVec 8)).foldl
      (fun v b => 256 * v + b.toNat) 0 = 0 := by
  induction n with
  | zero => rfl
  | succ n ih => exact ih

theorem storeData_spec {length : Nat} {nibbles : List Nat}
    (hlength : nibbles.length ≤ (length + 3) / 4)
    (hlt : ∀ d ∈ nibbles, d < 16) :
    ∃ bytes pad, storeData length nibbles = .ok (bytes ++ pad) ∧
      bytes.length = (length + 7) / 8 ∧
      bytes.foldl (fun v b => 256 * v + b.toNat) 0 =
        nibbles.foldl (fun v d => 16 * v + d) 0 := by
  have hstored := length_storeNibbles nibbles
  unfold storeData
  rw [if_neg (by omega)]
  refine ⟨_, _, rfl, ?_, ?_⟩
  · rw [List.length_append, List.length_replicate]
    omega
  · rw [List.foldl_append, foldl_replicate_zero, storeNibbles_value _ hlt]

theorem readBits_bytes (bytes pad : List (BitVec 8)) :
    readBits (rawBit fun i => (bytes ++ pad).getD i 0) 0 (8 * bytes.length) =
      bytes.foldl (fun v b => 256 * v + b.toNat) 0 := by
  induction bytes using List.reverseRecOn generalizing pad with
  | nil => exact readBits_zero_length _ _
  | append_singleton bytes b ih =>
      have hnext := ih (b :: pad)
      rw [List.append_cons] at hnext
      rw [List.length_append, List.length_singleton, Nat.mul_add,
        readBits_add, hnext, Nat.zero_add, Nat.mul_one, readBits_byte,
        List.foldl_append, List.foldl_cons, List.foldl_nil, Nat.mul_comm]
      simp

/-! ## Tests -/

/-- Where the value starts in the data. -/
def dataStart (length : Nat) : Nat := (8 - length % 8) % 8

def TccextMatch.bit (m : TccextMatch) (i : Nat) : Bool :=
  rawBit (fun i => m.data.getD i 0) (dataStart m.field.length + i)

/-- What a match says about single bits. -/
def TccextMatch.tests (m : TccextMatch) : List BitMatch :=
  (List.range m.field.length).map fun i =>
    ⟨m.field.offsetGroup.number, m.field.offset + i, m.bit i⟩

theorem tests_of_stands {m : Match} {run : List BitMatch} (h : m.Stands run)
    {parsed : TccextMatch} {bytes pad : List (BitVec 8)}
    (hgroup : parsed.field.offsetGroup.number = m.offsetGroup)
    (hoffset : parsed.field.offset = m.offset)
    (hlength : parsed.field.length = m.length)
    (hdata : parsed.data = bytes ++ pad)
    (hbytes : bytes.length = (m.length + 7) / 8)
    (hvalue : bytes.foldl (fun v b => 256 * v + b.toNat) 0 = m.value) :
    parsed.tests = run := by
  have hnumber : readBits (rawBit fun i => parsed.data.getD i 0)
      (dataStart m.length) m.length = ofBinary (run.map (·.value)) := by
    have hlt := ofBinary_lt (run.map (·.value))
    rw [List.length_map, ← h.length] at hlt
    have hall : dataStart m.length + m.length = 8 * bytes.length := by
      rw [hbytes, dataStart]
      omega
    have hmod := readBits_mod (rawBit fun i => parsed.data.getD i 0) 0
      (dataStart m.length) m.length
    rw [hall, hdata, readBits_bytes, hvalue, Match.value, h.digits,
      collected_value, Nat.mod_eq_of_lt hlt, Nat.zero_add] at hmod
    rw [hdata]
    exact hmod.symm
  refine List.ext_getElem ?_ fun i hi hrun => ?_
  · rw [TccextMatch.tests, List.length_map, List.length_range, hlength,
      h.length]
  · have hbit : (ofBinary (run.map (·.value))).testBit (run.length - 1 - i) =
        run[i].value := by
      have hvalues : i < (run.map (·.value)).length := by
        rw [List.length_map]
        exact hrun
      have hone := testBit_ofBinary (run.map (·.value)) hvalues
      rw [List.getElem_map] at hone
      simpa using hone
    have hback : m.length - 1 - (run.length - 1 - i) = i := by
      rw [h.length]
      omega
    rw [← hnumber, testBit_readBits, hback,
      decide_eq_true (by rw [h.length]; omega), Bool.true_and] at hbit
    rw [h.consecutive.getElem hrun]
    simp only [TccextMatch.tests, List.getElem_map, List.getElem_range,
      TccextMatch.bit, hgroup, hoffset, hlength, hbit]

/-! ## Reading what is printed -/

theorem findGroup_number {groups : List TccextOffset} {number : Nat}
    {group : TccextOffset} (h : findGroup groups number = .ok group) :
    group.number = number := by
  rw [findGroup] at h
  split at h
  · next hraw =>
      obtain rfl := Except.ok.inj h
      exact hraw.symm
  · split at h
    · next hmeta =>
        obtain rfl := Except.ok.inj h
        exact hmeta.symm
    · split at h
      · next hfound =>
          obtain rfl := Except.ok.inj h
          simpa using List.find?_some hfound
      · cases h

theorem scanField_print (base offset length : Nat) (rest : List Char) :
    scanField (printNat base ++ ':' :: (printNat offset ++
      ':' :: (printNat length ++ '=' :: rest))) =
      some ((base, offset, length), '=' :: rest) := by
  have hcolon : ∀ rest, Ends (':' :: rest) := by simp [Ends]
  have hequal : ∀ rest, Ends ('=' :: rest) := by simp [Ends]
  rw [scanField, scanInt_printNat (hcolon _) (by simp)]
  simp only [Option.bind_eq_bind, Option.bind_some, scanChar, if_true]
  rw [scanInt_printNat (hcolon _) (by simp)]
  simp only [Option.bind_some, if_true]
  rw [scanInt_printNat (hequal _) (by simp)]
  rfl

theorem parseField_print (groups : List TccextOffset)
    (base offset length : Nat) (rest : List Char) :
    parseField groups (printNat base ++ ':' :: (printNat offset ++
      ':' :: (printNat length ++ '=' :: rest))) =
      (findGroup groups base).map fun group =>
        (⟨group, offset, length⟩, '=' :: rest) := by
  rw [parseField, scanField_print]
  dsimp only
  cases findGroup groups base <;> rfl

theorem print_drop (m : Match) (rest : List Char) :
    (m.print ++ rest).drop 1 = printNat m.offsetGroup ++
      ':' :: (printNat m.offset ++ ':' :: (printNat m.length ++
        '=' :: '0' :: 'x' :: (m.digits.map hexDigit ++ rest))) := by
  simp [Match.print]

/-- After a match comes a blank. -/
def Blank (rest : List Char) : Prop := rest.head? = some ' '

theorem dropWhile_zeros {digits : List Nat} (hlt : ∀ d ∈ digits, d < 16)
    {rest : List Char} (hrest : Blank rest) :
    (digits.map hexDigit ++ rest).dropWhile (· = '0') =
      (digits.dropWhile (· = 0)).map hexDigit ++ rest := by
  induction digits with
  | nil =>
      cases rest with
      | nil => rfl
      | cons c rest =>
          obtain rfl := Option.some.inj hrest
          rfl
  | cons d digits ih =>
      have hzero := (hexDigit_spec d (hlt d List.mem_cons_self)).2.2
      rw [List.map_cons, List.cons_append]
      by_cases hd : d = 0
      · rw [List.dropWhile_cons_of_pos (by simpa using hzero.mpr hd),
          List.dropWhile_cons_of_pos (by simpa using hd),
          ih fun d hd => hlt d (List.mem_cons_of_mem _ hd)]
      · rw [List.dropWhile_cons_of_neg (by simpa using mt hzero.mp hd),
          List.dropWhile_cons_of_neg (by simpa using hd)]
        rfl

theorem parseData_print {m : Match} {run : List BitMatch}
    (h : m.Stands run) {group : TccextOffset}
    (hgroup : group.number = m.offsetGroup) {rest : List Char}
    (hrest : Blank rest) :
    ∃ parsed, parseData ⟨group, m.offset, m.length⟩
      (m.digits.map hexDigit ++ rest) = .ok (parsed, rest) ∧
      parsed.tests = run := by
  have hlt : ∀ d ∈ m.digits, d < 16 := by
    rw [h.digits]
    exact nibbles_lt _ (by decide)
  have hcount : m.digits.length = (m.length + 3) / 4 := by
    rw [h.digits, length_nibbles, List.length_map, h.length]
  have hsub : (m.digits.dropWhile (· = 0)).Sublist m.digits :=
    List.dropWhile_sublist _
  have hsubset : ∀ d ∈ m.digits.dropWhile (· = 0), d < 16 :=
    fun d hd => hlt d (hsub.subset hd)
  have hvalues : ((m.digits.dropWhile (· = 0)).map hexDigit).map hexValue =
      m.digits.dropWhile (· = 0) := by
    rw [List.map_map]
    exact (List.map_congr_left fun d hd =>
      (hexDigit_spec d (hsubset d hd)).2.1).trans (List.map_id _)
  have hdigits : ∀ c ∈ (m.digits.dropWhile (· = 0)).map hexDigit,
      isXdigit c = true := by
    intro c hc
    obtain ⟨d, hd, rfl⟩ := List.mem_map.mp hc
    exact (hexDigit_spec d (hsubset d hd)).1
  have hends : ∀ c ∈ rest.head?, isXdigit c = false := by
    intro c hc
    rw [hrest] at hc
    obtain rfl := Option.some.inj hc
    rfl
  obtain ⟨htake, hdrop⟩ := takeWhile_append_of_ends hdigits hends
  obtain ⟨bytes, pad, hstore, hbytes, hvalue⟩ := storeData_spec
    (Nat.le_trans hsub.length_le (Nat.le_of_eq hcount)) hsubset
  rw [foldl_dropWhile_zero] at hvalue
  refine ⟨⟨⟨group, m.offset, m.length⟩, bytes ++ pad⟩, ?_,
    tests_of_stands h hgroup rfl rfl rfl hbytes hvalue⟩
  simp only [parseData]
  rw [dropWhile_zeros hlt hrest, htake, hdrop, hvalues, hstore]
  rfl

theorem parseMatch_print {m : Match} {run : List BitMatch}
    (h : m.Stands run) {rest : List Char} (hrest : Blank rest)
    (groups : List TccextOffset) :
    match parseMatch groups ((m.print ++ rest).drop 1) with
    | .ok (parsed, line) => parsed.tests = run ∧ line = rest
    | .error _ => ∀ group, findGroup groups m.offsetGroup ≠ .ok group := by
  rw [print_drop, parseMatch, parseField_print]
  cases hgroup : findGroup groups m.offsetGroup with
  | error e =>
      show ∀ group, (.error e : Except Error TccextOffset) ≠ .ok group
      exact fun group hfound => by cases hfound
  | ok group =>
      obtain ⟨parsed, hparsed, htests⟩ :=
        parseData_print h (findGroup_number hgroup) hrest
      show match parseData ⟨group, m.offset, m.length⟩
          (m.digits.map hexDigit ++ rest) with
        | .ok (parsed, line) => parsed.tests = run ∧ line = rest
        | .error _ => ∀ group', (.ok group : Except Error TccextOffset) ≠
            .ok group'
      rw [hparsed]
      exact ⟨htests, rfl⟩

theorem print_eq_cons (m : Match) :
    ∃ text, m.print = ' ' :: text ∧ text.head?.any Char.isDigit = true := by
  obtain ⟨c, digits, hcons, hc⟩ := printNat_eq_cons m.offsetGroup
  refine ⟨m.print.drop 1, by simp [Match.print], ?_⟩
  have hdrop := print_drop m []
  rw [List.append_nil] at hdrop
  rw [hdrop, hcons]
  simpa using hc

theorem blank_flatMap (ms : List Match) {rest : List Char}
    (hrest : Blank rest) : Blank (ms.flatMap Match.print ++ rest) := by
  cases ms with
  | nil => exact hrest
  | cons m ms =>
      obtain ⟨text, hprint, _⟩ := print_eq_cons m
      rw [List.flatMap_cons, hprint]
      rfl

theorem parseMatches_print {ms : List Match} {runs : List (List BitMatch)}
    (h : List.Forall₂ Match.Stands ms runs) (groups : List TccextOffset)
    {rest : List Char} (hrest : Blank rest)
    (hdigit : (rest.drop 1).head?.any Char.isDigit = false) (fuel : Nat)
    (hfuel : ms.length < fuel) :
    match parseMatches groups fuel
      ((ms.flatMap Match.print ++ rest).drop 1) with
    | .ok (tests, line) => tests.map (·.tests) = runs ∧ line = rest.drop 1
    | .error _ => ∃ m ∈ ms, ∀ group,
        findGroup groups m.offsetGroup ≠ .ok group := by
  induction h generalizing fuel with
  | nil =>
      obtain ⟨fuel, rfl⟩ := Nat.exists_eq_succ_of_ne_zero
        (Nat.ne_of_gt hfuel)
      rw [List.flatMap_nil, List.nil_append, parseMatches, hdigit]
      exact ⟨rfl, rfl⟩
  | @cons m run ms runs hm hms ih =>
      obtain ⟨fuel, rfl⟩ := Nat.exists_eq_succ_of_ne_zero
        (Nat.ne_of_gt (Nat.lt_of_le_of_lt (Nat.zero_le _) hfuel))
      have hmatch := parseMatch_print hm (blank_flatMap ms hrest) groups
      have htail := ih fuel (Nat.lt_of_succ_lt_succ hfuel)
      have hfirst : (((m.print ++ (ms.flatMap Match.print ++ rest)).drop
          1).head?.any Char.isDigit) = true := by
        obtain ⟨text, hprint, hany⟩ := print_eq_cons m
        rw [hprint, List.cons_append, List.drop_one, List.tail_cons,
          List.head?_append]
        cases hhead : text.head? with
        | none => rw [hhead] at hany; cases hany
        | some c => rw [hhead] at hany; exact hany
      rw [List.flatMap_cons, List.append_assoc, parseMatches, hfirst]
      cases hparsed : parseMatch groups
          ((m.print ++ (ms.flatMap Match.print ++ rest)).drop 1) with
      | error e =>
          rw [hparsed] at hmatch
          exact ⟨m, List.mem_cons_self, hmatch⟩
      | ok result =>
          obtain ⟨parsed, line⟩ := result
          rw [hparsed] at hmatch
          obtain ⟨htests, rfl⟩ := hmatch
          simp only [if_true, bind, Except.bind]
          cases hrun : parseMatches groups fuel
              ((ms.flatMap Match.print ++ rest).drop 1) with
          | error e =>
              rw [hrun] at htail
              obtain ⟨other, hother, hunknown⟩ := htail
              exact ⟨other, List.mem_cons_of_mem _ hother, hunknown⟩
          | ok result =>
              obtain ⟨tests, line⟩ := result
              rw [hrun] at htail
              obtain ⟨hruns, hline⟩ := htail
              exact ⟨by rw [List.map_cons, htests, hruns], hline⟩

theorem scanInt_blank (text : List Char) :
    scanInt (' ' :: text) = scanInt text := by
  rw [scanInt, scanInt, List.dropWhile_cons_of_pos (by decide)]

theorem scanAction_print (action : Nat) :
    scanAction ("action ".toList ++ printNat action) = some action := by
  have hscan : scanInt (printNat action ++ []) = some (action, []) :=
    scanInt_printNat (by simp [Ends]) (by simp) action
  rw [List.append_nil] at hscan
  have hword : "action".toList.foldlM (fun line c => scanChar c line)
      (("action ".toList ++ printNat action).dropWhile isSpace) =
        some (' ' :: printNat action) := rfl
  rw [scanAction, hword]
  simp only [bind, Option.bind, scanInt_blank, hscan, pure]

theorem length_le_flatMap_print (ms : List Match) :
    ms.length ≤ (ms.flatMap Match.print).length := by
  induction ms with
  | nil => exact Nat.le_refl _
  | cons m ms ih =>
      obtain ⟨text, hprint, _⟩ := print_eq_cons m
      rw [List.flatMap_cons, List.length_append, hprint, List.length_cons,
        List.length_cons]
      omega

/-- The rule that is read has the tests that were printed, unless one of them
is in an unknown group or the action is unknown. -/
theorem parseRule_ruleText (groups : List TccextOffset)
    (actions : List ListedAction) (bits : List BitMatch) (action : Nat) :
    match parseRule groups actions ((ruleText bits action).drop 1) with
    | .ok rule => ∀ b, b ∈ bits ↔ ∃ m ∈ rule.tests, b ∈ m.tests
    | .error _ =>
        (∃ b ∈ bits, ∀ group, findGroup groups b.offsetGroup ≠ .ok group) ∨
          findAction actions (.ofNat 32 action) = none := by
  obtain ⟨runs, hflatten, hstands⟩ := collectBits_stands (sortBits bits)
  have hmem : ∀ b, b ∈ bits ↔ b ∈ runs.flatten := fun b => by
    rw [hflatten]
    exact (sortBits_perm bits).mem_iff.symm
  have htext : ruleText bits action =
      (collectBits (sortBits bits)).flatMap Match.print ++
        ' ' :: ("action ".toList ++ printNat action) := by
    simp [ruleText]
  have hfuel : (collectBits (sortBits bits)).length <
      ((ruleText bits action).drop 1).length + 1 := by
    have hle := length_le_flatMap_print (collectBits (sortBits bits))
    rw [htext, List.length_drop, List.length_append, List.length_cons]
    omega
  have hblank : Blank (' ' :: ("action ".toList ++ printNat action)) := rfl
  have hmatches := parseMatches_print hstands groups hblank rfl _ hfuel
  rw [← htext] at hmatches
  have hstand : ∀ m ∈ collectBits (sortBits bits), ∃ b ∈ bits,
      b.offsetGroup = m.offsetGroup := by
    intro m hm
    obtain ⟨run, hrun, hstand⟩ := stands_of_mem hstands hm
    obtain ⟨b, hb⟩ := List.exists_mem_of_ne_nil run hstand.nonempty
    refine ⟨b, (hmem b).mpr (List.mem_flatten_of_mem hrun hb), ?_⟩
    obtain ⟨i, hi, rfl⟩ := List.getElem_of_mem hb
    rw [hstand.consecutive.getElem hi]
  rw [parseRule]
  cases hrun : parseMatches groups (((ruleText bits action).drop 1).length + 1)
      ((ruleText bits action).drop 1) with
  | error e =>
      rw [hrun] at hmatches
      obtain ⟨m, hm, hunknown⟩ := hmatches
      obtain ⟨b, hb, hgroup⟩ := hstand m hm
      exact .inl ⟨b, hb, by rwa [hgroup]⟩
  | ok result =>
      obtain ⟨tests, line⟩ := result
      rw [hrun] at hmatches
      obtain ⟨htests, rfl⟩ := hmatches
      have htests' : ∀ b, b ∈ bits ↔ ∃ m ∈ tests, b ∈ m.tests := by
        intro b
        rw [hmem, ← htests]
        simp
      have haction : scanAction ((' ' :: ("action ".toList ++
          printNat action)).drop 1) = some action := scanAction_print action
      simp only [bind, Except.bind, haction]
      cases findAction actions (.ofNat 32 action) with
      | none => exact .inr rfl
      | some address => exact htests'

/-! ## Looking at a packet -/

/-- The bits of a group in a packet, where those of the meta fields come from
the protocol. -/
def groupBits (raw : Nat → BitVec 8) (protocol : BitVec 16) :
    TccextOffset → Except Error (Nat → Bool)
  | .metaField => .ok fun i => protocol.getMsbD i
  | group => do
      let base ← offset raw group
      .ok fun i => rawBit raw (base.toInt + i).toNat

/-- The field starts inside of what can be looked at, and `extract_bits` takes
it in one word; the meta field is the one there is. -/
def TccextField.Readable (raw : Nat → BitVec 8) (field : TccextField) : Prop :=
  match field.offsetGroup with
  | .metaField => field.offset = metaProtocolOffset.toNat * 8 ∧
      field.length = metaProtocolSize.toNat * 8
  | group => ∃ base start, Ext.offset raw group = .ok base ∧
      position base field.offset = .ok start ∧ field.length + start % 8 ≤ 32

theorem matchData_spec {m : TccextMatch} (h : m.field.length ≤ 32) :
    ∃ r, matchData m = .ok r ∧ r.toNat =
      readBits (rawBit fun i => m.data.getD i 0) (dataStart m.field.length)
        m.field.length :=
  extractBits_spec _ (by omega)

theorem forall_tests (m : TccextMatch) (bits : Nat → Bool) :
    (∀ t ∈ m.tests, bits t.offset = t.value) ↔
      ∀ i < m.field.length, bits (m.field.offset + i) = m.bit i := by
  simp [TccextMatch.tests]

theorem position_eq_ok {base : BitVec 32} {offset start : Nat}
    (h : position base offset = .ok start) :
    (start : Int) = base.toInt + offset := by
  rw [position] at h
  split at h
  · cases h
  · next hrange =>
      obtain rfl := Except.ok.inj h
      exact Int.toNat_of_nonneg (by omega)

theorem toNat_protocol (protocol : BitVec 16) :
    (protocol.setWidth 32).toNat = readBits (fun i => protocol.getMsbD i) 0 16 := by
  rw [BitVec.toNat_setWidth,
    Nat.mod_eq_of_lt (Nat.lt_trans protocol.isLt (by decide))]
  apply Nat.eq_of_testBit_eq
  intro i
  rw [testBit_readBits, BitVec.testBit_toNat]
  by_cases hi : i < 16
  · have hback : 16 - 1 - (16 - 1 - i) = i := by omega
    rw [decide_eq_true hi, Bool.true_and, Nat.zero_add,
      BitVec.getMsbD_eq_getLsbD, hback, decide_eq_true (by omega),
      Bool.true_and]
  · rw [decide_eq_false hi, Bool.false_and,
      BitVec.getLsbD_of_ge _ _ (Nat.le_of_not_lt hi)]

theorem match1_spec (m : TccextMatch) (raw : Nat → BitVec 8)
    (protocol : BitVec 16) (h : m.field.Readable raw) :
    ∃ bits holds, groupBits raw protocol m.field.offsetGroup = .ok bits ∧
      match1 m raw protocol = .ok holds ∧
      (holds = true ↔ ∀ t ∈ m.tests, bits t.offset = t.value) := by
  have hcompare : ∀ {x y : BitVec 32} {f : Nat → Bool} {s : Nat},
      x.toNat = readBits f s m.field.length →
      y.toNat = readBits (rawBit fun i => m.data.getD i 0)
        (dataStart m.field.length) m.field.length →
      ((x == y) = true ↔ ∀ i < m.field.length, f (s + i) = m.bit i) := by
    intro x y f s hx hy
    rw [beq_iff_eq, ← BitVec.toNat_inj, hx, hy, readBits_inj]
    rfl
  cases hgroup : m.field.offsetGroup with
  | metaField =>
      rw [TccextField.Readable, hgroup] at h
      obtain ⟨hoffset, hlength⟩ := h
      have hzero : m.field.offset = 0 := hoffset
      have hsixteen : m.field.length = 16 := hlength
      obtain ⟨y, hdata, hy⟩ := matchData_spec (m := m) (by omega)
      have hprotocol : (protocol.setWidth 32).toNat =
          readBits (fun i => protocol.getMsbD i) 0 m.field.length := by
        rw [hsixteen]
        exact toNat_protocol protocol
      refine ⟨fun i => protocol.getMsbD i, protocol.setWidth 32 == y, rfl,
        ?_, ?_⟩
      · rw [match1, hgroup]
        dsimp only
        rw [if_neg (not_not_intro hoffset), if_neg (not_not_intro hlength),
          hdata]
        rfl
      · rw [forall_tests m fun i => protocol.getMsbD i, hzero]
        exact hcompare hprotocol hy
  | _ =>
      rw [TccextField.Readable, hgroup] at h
      obtain ⟨base, start, hbase, hstart, hreadable⟩ := h
      obtain ⟨x, hbits, hx⟩ := extractBits_spec raw hreadable
      obtain ⟨y, hdata, hy⟩ := matchData_spec (m := m) (by omega)
      have hposition := position_eq_ok hstart
      refine ⟨fun i => rawBit raw (base.toInt + i).toNat, x == y, ?_, ?_, ?_⟩
      · rw [groupBits, hbase]
        · rfl
        · exact nofun
      · rw [match1, hgroup]
        dsimp only
        rw [hbase]
        simp only [bind, Except.bind, hstart, hbits, hdata]
      · rw [forall_tests m fun i => rawBit raw (base.toInt + i).toNat,
          hcompare hx hy]
        refine forall₂_congr fun i _ => ?_
        have hplace : (base.toInt + (m.field.offset + i : Nat)).toNat =
            start + i := by omega
        rw [hplace]

/-- What is read back says the same about single bits, and a match holds on a
packet if those bits have their values there. -/
theorem ruleText_matches (groups : List TccextOffset)
    (actions : List ListedAction) (bits : List BitMatch) (action : Nat) :
    match parseRule groups actions ((ruleText bits action).drop 1) with
    | .ok rule =>
        (∀ b, b ∈ bits ↔ ∃ m ∈ rule.tests, b ∈ m.tests) ∧
        ∀ m ∈ rule.tests, ∀ raw protocol, m.field.Readable raw →
          ∃ packetBits holds,
            groupBits raw protocol m.field.offsetGroup = .ok packetBits ∧
            match1 m raw protocol = .ok holds ∧
            (holds = true ↔ ∀ t ∈ m.tests, packetBits t.offset = t.value)
    | .error _ =>
        (∃ b ∈ bits, ∀ group, findGroup groups b.offsetGroup ≠ .ok group) ∨
          findAction actions (.ofNat 32 action) = none := by
  have hread := parseRule_ruleText groups actions bits action
  cases hrun : parseRule groups actions ((ruleText bits action).drop 1) with
  | error e =>
      rw [hrun] at hread
      exact hread
  | ok rule =>
      rw [hrun] at hread
      exact ⟨hread, fun m _ raw protocol => match1_spec m raw protocol⟩

end Tcng.Ext
