import Mathlib
import Tcng.TcmCls

/-!
Every run of `police_conform` and `police_count`: buckets do not overflow, no
unsigned subtraction wraps around, and a refill adds to a chain of buckets what
is looked up, as far as there is room.
-/

namespace Tcng.TcmCls

variable {k n : Nat}

/-- A subtraction that is right unless it has to wrap around. -/
def Sound (sub : Subtraction) : Prop :=
  ∀ {w : Nat} (a b : BitVec w), b ≤ a → sub w a b = some (a - b)

theorem wrapping_sound : Sound wrapping := fun _ _ _ => rfl

theorem checked_sound : Sound checked := fun _ _ h => if_pos h

/-! ## Time -/

/-- The clock does not go backward from `a` to `b`. -/
def Timeval.Le (a b : Timeval k) : Prop :=
  a.tvSec.toNat < b.tvSec.toNat ∨
    a.tvSec.toNat = b.tvSec.toNat ∧ a.tvUsec.toNat ≤ b.tvUsec.toNat

theorem Timeval.Le.trans {a b c : Timeval k} (hab : a.Le b) (hbc : b.Le c) :
    a.Le c := by
  unfold Timeval.Le at *
  omega

theorem Timeval.zero_le (a : Timeval k) : (Timeval.zero k).Le a := by
  have hzero : (0 : BitVec (32 + k)).toNat = 0 := rfl
  simp only [Timeval.Le, Timeval.zero, hzero]
  omega

private theorem borrow_iff (x : BitVec 32) :
    x &&& 0x80000000#32 ≠ 0#32 ↔ 2 ^ 31 ≤ x.toNat := by
  have hbit : (0x80000000#32) = BitVec.twoPow 32 31 := by decide
  have hmsb : x.getLsbD 31 = decide (2 ^ 31 ≤ x.toNat) := by
    have h := BitVec.msb_eq_decide x
    simpa [BitVec.msb_eq_getLsbD_last] using h
  rw [hbit, BitVec.and_twoPow, hmsb]
  by_cases h : 2 ^ 31 ≤ x.toNat
  · simp only [h, decide_true, if_true]
    decide
  · simp only [h, decide_false]
    decide

/-- The difference of the microseconds in 32 bits, before it is corrected. -/
private theorem deltaUs_toNat {b : Bucket k n} (now : Timeval k)
    (hcarry : b.carry.toNat < 2 ^ 24) :
    ((now.tvUsec - b.lastRefill.tvUsec +
      b.carry.signExtend (32 + k)).setWidth 32).toNat =
      (2 ^ 32 - b.lastRefill.tvUsec.toNat + now.tvUsec.toNat +
        b.carry.toNat) % 2 ^ 32 := by
  have hlast := b.lastRefill.normal
  have hnow := now.normal
  have hmsb : b.carry.msb = false := by
    rw [BitVec.msb_eq_decide]
    simp only [decide_eq_false_iff_not]
    omega
  have hwide : (b.carry.signExtend (32 + k)).toNat = b.carry.toNat := by
    rw [BitVec.toNat_signExtend, hmsb, BitVec.toNat_setWidth]
    exact Nat.mod_eq_of_lt (b.carry.isLt.trans_le
      (Nat.pow_le_pow_right (by decide) (by omega)))
  have hdvd : 2 ^ 32 ∣ 2 ^ (32 + k) := Nat.pow_dvd_pow 2 (by omega)
  obtain ⟨c, hc⟩ : ∃ c, 2 ^ (32 + k) = 2 ^ 32 + 2 ^ 32 * c := by
    refine ⟨2 ^ k - 1, ?_⟩
    have hpos : 1 ≤ 2 ^ k := Nat.one_le_two_pow
    have hsplit : 2 ^ k = 1 + (2 ^ k - 1) := by omega
    rw [pow_add]
    conv_lhs => rw [hsplit, Nat.mul_add, Nat.mul_one]
  rw [BitVec.toNat_setWidth, BitVec.toNat_add, BitVec.toNat_sub, hwide,
    Nat.mod_mod_of_dvd _ hdvd, Nat.add_mod, Nat.mod_mod_of_dvd _ hdvd,
    ← Nat.add_mod, hc]
  have hsplit : 2 ^ 32 + 2 ^ 32 * c - b.lastRefill.tvUsec.toNat +
      now.tvUsec.toNat + b.carry.toNat =
        2 ^ 32 - b.lastRefill.tvUsec.toNat + now.tvUsec.toNat +
          b.carry.toNat + 2 ^ 32 * c := by
    omega
  rw [hsplit, Nat.add_mul_mod_self_left]

/-- Less than 2^32 seconds have passed since the last refill. -/
def Recent (b : Bucket k n) (now : Timeval k) : Prop :=
  now.tvSec.toNat - b.lastRefill.tvSec.toNat < 2 ^ 32

theorem timeDifference_eq {b : Bucket k n} {now : Timeval k}
    (hclock : b.lastRefill.Le now) (hrecent : Recent b now)
    (hcarry : b.carry.toNat < 2 ^ 24) :
    ∃ difference, ∀ sub : Subtraction, Sound sub →
      timeDifference sub b now = some difference := by
  have hsec : b.lastRefill.tvSec ≤ now.tvSec := by
    rw [BitVec.le_def]
    unfold Timeval.Le at hclock
    omega
  have hdeltaS : ((now.tvSec - b.lastRefill.tvSec).setWidth 32).toNat =
      now.tvSec.toNat - b.lastRefill.tvSec.toNat := by
    rw [BitVec.toNat_setWidth, BitVec.toNat_sub_of_le hsec]
    exact Nat.mod_eq_of_lt hrecent
  have hdeltaUs := deltaUs_toNat now hcarry
  have hlast := b.lastRefill.normal
  have hnow := now.normal
  by_cases hborrow : (now.tvUsec - b.lastRefill.tvUsec +
      b.carry.signExtend (32 + k)).setWidth 32 &&& 0x80000000#32 ≠ 0#32
  · -- the microseconds went back, so that the seconds went forward
    have hbit := (borrow_iff _).1 hborrow
    rw [hdeltaUs] at hbit
    have hback : now.tvUsec.toNat < b.lastRefill.tvUsec.toNat := by
      omega
    have hforward : 1#32 ≤
        (now.tvSec - b.lastRefill.tvSec).setWidth 32 := by
      rw [BitVec.le_def, hdeltaS]
      unfold Timeval.Le at hclock
      simp only [BitVec.toNat_ofNat]
      omega
    refine ⟨((now.tvSec - b.lastRefill.tvSec).setWidth 32 - 1#32,
      (now.tvUsec - b.lastRefill.tvUsec +
        b.carry.signExtend (32 + k)).setWidth 32 + 1000000#32),
      fun sub hsub => ?_⟩
    unfold timeDifference
    rw [hsub _ _ hsec]
    simp only [Option.bind_eq_bind, Option.bind_some]
    rw [if_pos hborrow, hsub _ _ hforward]
    rfl
  · refine ⟨((now.tvSec - b.lastRefill.tvSec).setWidth 32,
      (now.tvUsec - b.lastRefill.tvUsec +
        b.carry.signExtend (32 + k)).setWidth 32), fun sub hsub => ?_⟩
    unfold timeDifference
    rw [hsub _ _ hsec]
    simp only [Option.bind_eq_bind, Option.bind_some]
    rw [if_neg hborrow]

theorem refillTime_eq (b : Bucket k n) (deltaS deltaUs : BitVec 32) :
    ∃ time, time ≤ b.maxTime ∧ ∀ sub : Subtraction, Sound sub →
      refillTime sub b deltaS deltaUs = some time := by
  have hcap : ∀ elapsed : BitVec 32, ∃ time, time ≤ b.maxTime ∧
      (if elapsed > b.maxTime then some b.maxTime else some elapsed) =
        some time := by
    intro elapsed
    by_cases h : elapsed > b.maxTime
    · exact ⟨b.maxTime, BitVec.le_refl _, if_pos h⟩
    · exact ⟨elapsed, BitVec.not_lt.1 h, if_neg h⟩
  unfold refillTime
  by_cases hshort : deltaS < 4#32
  · obtain ⟨time, hle, htime⟩ := hcap (deltaUs + 1000000#32 * deltaS)
    refine ⟨time, hle, fun sub _ => ?_⟩
    rw [if_pos hshort]
    exact htime
  · by_cases hlong : deltaS > 4#32 ∨ b.maxTime < 4000000#32
    · obtain ⟨time, hle, htime⟩ := hcap b.maxTime
      refine ⟨time, hle, fun sub _ => ?_⟩
      rw [if_neg hshort, if_pos hlong]
      exact htime
    · have hfour : 4000000#32 ≤ b.maxTime :=
        BitVec.not_lt.1 (not_or.1 hlong).2
      obtain ⟨time, hle, htime⟩ := hcap
        (if deltaUs > b.maxTime - 4000000#32 then b.maxTime
          else deltaUs + 1000000#32 * deltaS)
      refine ⟨time, hle, fun sub hsub => ?_⟩
      rw [if_neg hshort, if_neg hlong, hsub _ _ hfour]
      exact htime

/-! ## The scale -/

private theorem scaleLoop_spec (maxTime : BitVec 32) (fuel scale : Nat)
    (hfuel : fuel + scale = 32) (hscale : scale ≤ 24) :
    scaleLoop maxTime fuel scale ≤ 24 ∧
      maxTime >>> scaleLoop maxTime fuel scale ≤ 255 := by
  induction fuel generalizing scale with
  | zero => omega
  | succ fuel ih =>
      unfold scaleLoop
      split
      next hmore =>
        have hnext : scale + 1 ≤ 24 := by
          by_contra hlast
          obtain rfl : scale = 24 := by omega
          have hlt := maxTime.isLt
          have hgt : 255 < (maxTime >>> 24).toNat := hmore
          rw [BitVec.toNat_ushiftRight, Nat.shiftRight_eq_div_pow] at hgt
          omega
        exact ih (scale + 1) (by omega) hnext
      next hdone => exact ⟨hscale, BitVec.not_lt.1 hdone⟩

/-! ## Chains -/

/-- No bucket is reached again from itself. -/
def Acyclic (overflow : Fin n → Option (Fin n)) : Prop :=
  ∀ i, ¬Relation.TransGen (fun a b => overflow a = some b) i i

/-- A bucket and the ones that it overflows to. -/
def chain (overflow : Fin n → Option (Fin n)) :
    Nat → Option (Fin n) → List (Fin n)
  | _, none => []
  | 0, some _ => []
  | fuel + 1, some i => i :: chain overflow fuel (overflow i)

@[simp] theorem chain_none (overflow : Fin n → Option (Fin n)) (fuel : Nat) :
    chain overflow fuel none = [] := by
  cases fuel <;> rfl

private theorem mem_chain {overflow : Fin n → Option (Fin n)} {fuel : Nat}
    {start j : Fin n} (h : j ∈ chain overflow fuel (some start)) :
    j = start ∨ Relation.TransGen (fun a b => overflow a = some b) start j := by
  induction fuel generalizing start with
  | zero => cases h
  | succ fuel ih =>
      rcases List.mem_cons.1 h with rfl | hrest
      · exact .inl rfl
      · right
        cases hnext : overflow start with
        | none =>
            simp [hnext] at hrest
        | some next =>
            rw [hnext] at hrest
            rcases ih hrest with rfl | hpath
            · exact .single hnext
            · exact .head hnext hpath

theorem chain_nodup {overflow : Fin n → Option (Fin n)}
    (hacyclic : Acyclic overflow) (fuel : Nat) (start : Option (Fin n)) :
    (chain overflow fuel start).Nodup := by
  induction fuel generalizing start with
  | zero => cases start <;> exact .nil
  | succ fuel ih =>
      cases start with
      | none => exact .nil
      | some i =>
          refine List.nodup_cons.2 ⟨?_, ih (overflow i)⟩
          intro hagain
          cases hnext : overflow i with
          | none =>
              simp [hnext] at hagain
          | some next =>
              rw [hnext] at hagain
              rcases mem_chain hagain with rfl | hpath
              · exact hacyclic i (.single hnext)
              · exact hacyclic i (.head hnext hpath)

/-- The tokens in some buckets, and what could be added to them. -/
def held (buckets : Buckets k n) (l : List (Fin n)) : Nat :=
  (l.map fun i => (buckets i).tokens.toNat).sum

def room (buckets : Buckets k n) (l : List (Fin n)) : Nat :=
  (l.map fun i => (buckets i).depth.toNat - (buckets i).tokens.toNat).sum

abbrev overflows (buckets : Buckets k n) : Fin n → Option (Fin n) :=
  fun i => (buckets i).overflow

/-- Only numbers of tokens differ. -/
def SameBut (buckets buckets' : Buckets k n) : Prop :=
  ∀ i, buckets' i = { buckets i with tokens := (buckets' i).tokens }

theorem setTokens_self (i : Fin n) (tokens : BitVec 32)
    (buckets : Buckets k n) :
    (setTokens i tokens buckets) i = { buckets i with tokens := tokens } :=
  Function.update_self ..

theorem setTokens_other {i j : Fin n} (h : j ≠ i) (tokens : BitVec 32)
    (buckets : Buckets k n) : (setTokens i tokens buckets) j = buckets j :=
  Function.update_of_ne h ..

theorem setTokens_sameBut (i : Fin n) (tokens : BitVec 32)
    (buckets : Buckets k n) : SameBut buckets (setTokens i tokens buckets) := by
  intro j
  by_cases h : j = i
  · subst h
    rw [setTokens_self]
  · rw [setTokens_other h]

theorem SameBut.trans {a b c : Buckets k n} (hab : SameBut a b)
    (hbc : SameBut b c) : SameBut a c := by
  intro i
  rw [hbc i, hab i]

theorem SameBut.overflows {a b : Buckets k n} (h : SameBut a b) :
    overflows b = overflows a := by
  funext i
  simp only [TcmCls.overflows]
  rw [h i]

theorem SameBut.depth {a b : Buckets k n} (h : SameBut a b) (i : Fin n) :
    (b i).depth = (a i).depth := by
  rw [h i]

private theorem held_congr {a b : Buckets k n} {l : List (Fin n)}
    (h : ∀ i ∈ l, (a i).tokens = (b i).tokens) : held a l = held b l := by
  unfold held
  congr 1
  refine List.map_congr_left ?_
  intro i hi
  rw [h i hi]

private theorem room_congr {a b : Buckets k n} {l : List (Fin n)}
    (h : ∀ i ∈ l, a i = b i) : room a l = room b l := by
  unfold room
  congr 1
  refine List.map_congr_left ?_
  intro i hi
  rw [h i hi]

/-- What the loop leaves, started with `tokens`. -/
structure Spilled (fuel : Nat) (start : Option (Fin n)) (tokens : BitVec 32)
    (buckets buckets' : Buckets k n) : Prop where
  same : SameBut buckets buckets'
  filled : ∀ i, (buckets' i).tokens ≤ (buckets' i).depth
  others : ∀ i, i ∉ chain (overflows buckets) fuel start →
    buckets' i = buckets i
  added : held buckets' (chain (overflows buckets) fuel start) =
    held buckets (chain (overflows buckets) fuel start) +
      min tokens.toNat (room buckets (chain (overflows buckets) fuel start))

private theorem spill_none {buckets : Buckets k n} {fuel : Nat}
    (tokens : BitVec 32)
    (hfilled : ∀ i, (buckets i).tokens ≤ (buckets i).depth) :
    ∃ buckets', (∀ sub : Subtraction, Sound sub →
      spill sub fuel none tokens buckets = some buckets') ∧
      Spilled fuel none tokens buckets buckets' := by
  refine ⟨buckets, fun sub _ => ?_, fun _ => rfl, hfilled, fun _ _ => rfl, ?_⟩
  · cases fuel <;> rfl
  · simp [held, room]

/-- The last bucket of the loop has room for the rest. -/
private theorem spilled_last {buckets : Buckets k n} {fuel : Nat}
    {add : Fin n} {tokens : BitVec 32}
    (hfilled : ∀ i, (buckets i).tokens ≤ (buckets i).depth)
    (hlast : add ∉ chain (overflows buckets) fuel (overflows buckets add))
    (henough : tokens ≤ (buckets add).depth - (buckets add).tokens) :
    Spilled (fuel + 1) (some add) tokens buckets
      (setTokens add ((buckets add).tokens + tokens) buckets) := by
  have hroom := BitVec.le_def.1 henough
  rw [BitVec.toNat_sub_of_le (hfilled add)] at hroom
  have hle := BitVec.le_def.1 (hfilled add)
  have hdepth := (buckets add).depth.isLt
  have hsum : ((buckets add).tokens + tokens).toNat =
      (buckets add).tokens.toNat + tokens.toNat := by
    rw [BitVec.toNat_add]
    exact Nat.mod_eq_of_lt (by omega)
  refine ⟨setTokens_sameBut _ _ _, ?_, ?_, ?_⟩
  · intro i
    by_cases h : i = add
    · subst h
      rw [setTokens_self, BitVec.le_def, hsum]
      show _ ≤ (buckets i).depth.toNat
      omega
    · rw [setTokens_other h]
      exact hfilled i
  · intro i hi
    have hne : i ≠ add := by
      rintro rfl
      exact hi List.mem_cons_self
    exact setTokens_other hne _ _
  · have hrest : held (setTokens add ((buckets add).tokens + tokens) buckets)
        (chain (overflows buckets) fuel (overflows buckets add)) =
          held buckets
            (chain (overflows buckets) fuel (overflows buckets add)) := by
      refine held_congr ?_
      intro i hi
      rw [setTokens_other (ne_of_mem_of_not_mem hi hlast)]
    simp only [chain, held, room, List.map_cons, List.sum_cons,
      setTokens_self, hsum] at hrest ⊢
    rw [hrest]
    omega

/-- The first bucket is full, and the loop goes on with the rest. -/
private theorem spilled_over {buckets buckets' : Buckets k n} {fuel : Nat}
    {add : Fin n} {tokens : BitVec 32}
    (hfilled : ∀ i, (buckets i).tokens ≤ (buckets i).depth)
    (hlast : add ∉ chain (overflows buckets) fuel (overflows buckets add))
    (hmore : (buckets add).depth - (buckets add).tokens ≤ tokens)
    (hspilled : Spilled fuel (overflows buckets add)
      (tokens - ((buckets add).depth - (buckets add).tokens))
      (setTokens add (buckets add).depth buckets) buckets') :
    Spilled (fuel + 1) (some add) tokens buckets buckets' := by
  have hsame := setTokens_sameBut add (buckets add).depth buckets
  have hchain := hsame.overflows
  have hothers := hspilled.others
  have hadded := hspilled.added
  rw [hchain] at hothers hadded
  have hroom := BitVec.le_def.1 hmore
  have hrest := BitVec.toNat_sub_of_le hmore
  rw [BitVec.toNat_sub_of_le (hfilled add)] at hroom hrest
  have hle := BitVec.le_def.1 (hfilled add)
  refine ⟨hsame.trans hspilled.same, hspilled.filled, ?_, ?_⟩
  · intro i hi
    have hne : i ≠ add := fun h => hi (h ▸ List.mem_cons_self)
    rw [hothers i (fun hin => hi (List.mem_cons_of_mem add hin)),
      setTokens_other hne]
  · have hkept : ∀ i ∈ chain (overflows buckets) fuel (overflows buckets add),
        setTokens add (buckets add).depth buckets i = buckets i :=
      fun i hi => setTokens_other (ne_of_mem_of_not_mem hi hlast) _ _
    rw [held_congr (fun i hi => congrArg Bucket.tokens (hkept i hi)),
      room_congr hkept, hrest] at hadded
    have hfull : (buckets' add).tokens = (buckets add).depth := by
      rw [hothers add hlast, setTokens_self]
    simp only [chain, held, room, List.map_cons, List.sum_cons, hfull]
      at hadded ⊢
    rw [hadded]
    omega

/-- `seen` are the buckets that the loop has passed. -/
theorem spill_spec (buckets : Buckets k n) (fuel : Nat)
    (start : Option (Fin n)) (tokens : BitVec 32) (seen : List (Fin n))
    (hacyclic : Acyclic (overflows buckets)) (hseen : seen.Nodup)
    (hfuel : seen.length + fuel = n)
    (hreach : ∀ j ∈ seen, ∀ i, start = some i →
      Relation.TransGen (fun a b => overflows buckets a = some b) j i)
    (hfilled : ∀ i, (buckets i).tokens ≤ (buckets i).depth) :
    ∃ buckets', (∀ sub : Subtraction, Sound sub →
      spill sub fuel start tokens buckets = some buckets') ∧
      Spilled fuel start tokens buckets buckets' := by
  induction fuel generalizing start tokens seen buckets with
  | zero =>
      cases start with
      | none => exact spill_none tokens hfilled
      | some i =>
          have hlong := (List.nodup_cons.2
            ⟨fun hin => hacyclic i (hreach i hin i rfl), hseen⟩).length_le_card
          simp only [List.length_cons, Fintype.card_fin] at hlong
          omega
  | succ fuel ih =>
      cases start with
      | none => exact spill_none tokens hfilled
      | some add =>
          have hnot : add ∉ seen :=
            fun hin => hacyclic add (hreach add hin add rfl)
          have hlast : add ∉
              chain (overflows buckets) fuel (overflows buckets add) :=
            (List.nodup_cons.1
              (chain_nodup hacyclic (fuel + 1) (some add))).1
          have hfree : ((buckets add).depth - (buckets add).tokens).toNat =
              (buckets add).depth.toNat - (buckets add).tokens.toNat :=
            BitVec.toNat_sub_of_le (hfilled add)
          by_cases henough :
              tokens ≤ (buckets add).depth - (buckets add).tokens
          · refine ⟨_, fun sub hsub => ?_, spilled_last hfilled hlast henough⟩
            unfold spill
            rw [hsub _ _ (hfilled add)]
            exact if_pos henough
          · have hmore : (buckets add).depth - (buckets add).tokens ≤ tokens :=
              BitVec.le_of_lt (BitVec.not_le.1 henough)
            have hsame := setTokens_sameBut add (buckets add).depth buckets
            obtain ⟨buckets', hspill, hspilled⟩ := ih
              (setTokens add (buckets add).depth buckets)
              (overflows buckets add)
              (tokens - ((buckets add).depth - (buckets add).tokens))
              (add :: seen) (by rwa [hsame.overflows])
              (List.nodup_cons.2 ⟨hnot, hseen⟩)
              (by rw [List.length_cons]; omega)
              (by
                rw [hsame.overflows]
                intro j hj i hi
                rcases List.mem_cons.1 hj with rfl | hin
                · exact .single hi
                · exact .tail (hreach j hin add rfl) hi)
              (by
                intro i
                by_cases h : i = add
                · subst h
                  rw [setTokens_self]
                  exact BitVec.le_refl _
                · rw [setTokens_other h]
                  exact hfilled i)
            refine ⟨buckets', fun sub hsub => ?_,
              spilled_over hfilled hlast hmore hspilled⟩
            unfold spill
            rw [hsub _ _ (hfilled add)]
            simp only [Option.bind_eq_bind, Option.bind_some]
            rw [if_neg henough, hsub _ _ hmore]
            exact hspill sub hsub

/-! ## Refills -/

/-- What every run keeps; `clock` is the time of the last call. -/
structure Good (clock : Timeval k) (buckets : Buckets k n) : Prop where
  filled : ∀ i, (buckets i).tokens ≤ (buckets i).depth
  past : ∀ i, (buckets i).lastRefill.Le clock
  carried : ∀ i, (buckets i).carry.toNat < 2 ^ 24
  scale : ∀ i, (buckets i).scale ≤ 24
  index : ∀ i, (buckets i).maxTime >>> (buckets i).scale ≤ 255
  acyclic : Acyclic (overflows buckets)

/-- A refill adds what is looked up, as far as there is room in the chain, and
none of its subtractions wraps around. -/
def RefillsExactly (i : Fin n) (now : Timeval k) (buckets : Buckets k n) :
    Prop :=
  ∃ time index tokens refilled,
    lookup wrapping i now buckets = some (time, index) ∧
      index < timeSteps ∧ (buckets i).t2b[index]? = some tokens ∧
      refillBucket wrapping i now buckets = some refilled ∧
      refillBucket checked i now buckets = some refilled ∧
      held refilled (chain (overflows buckets) n (some i)) =
        held buckets (chain (overflows buckets) n (some i)) +
          min tokens.toNat (room buckets (chain (overflows buckets) n (some i)))

theorem lookup_eq {clock now : Timeval k} {buckets : Buckets k n}
    (h : Good clock buckets) (i : Fin n) (hclock : clock.Le now)
    (hrecent : Recent (buckets i) now) :
    ∃ time index, index < timeSteps ∧ ∀ sub : Subtraction, Sound sub →
      lookup sub i now buckets = some (time, index) := by
  obtain ⟨⟨deltaS, deltaUs⟩, hdifference⟩ :=
    timeDifference_eq ((h.past i).trans hclock) hrecent (h.carried i)
  obtain ⟨time, hle, htime⟩ := refillTime_eq (buckets i) deltaS deltaUs
  refine ⟨time, (time >>> (buckets i).scale).toNat, ?_, fun sub hsub => ?_⟩
  · have hmax := BitVec.le_def.1 (h.index i)
    have htop := BitVec.le_def.1 hle
    rw [BitVec.toNat_ushiftRight, Nat.shiftRight_eq_div_pow] at hmax ⊢
    have hdiv := Nat.div_le_div_right (c := 2 ^ (buckets i).scale) htop
    have htwo : (255 : BitVec 32).toNat = 255 := rfl
    unfold timeSteps
    omega
  · unfold lookup
    rw [hdifference sub hsub]
    simp only [Option.bind_eq_bind, Option.bind_some]
    rw [htime sub hsub]
    rfl

/-- The bits that a refill ignores. -/
private theorem carry_lt {time : BitVec 32} {scale : Nat}
    (hscale : scale ≤ 24) :
    (time &&& ((1#32 <<< scale) - 1#32)).toNat < 2 ^ 24 := by
  have hpow : 2 ^ scale ≤ 2 ^ 24 := Nat.pow_le_pow_right (by decide) hscale
  have hpos : 1 ≤ 2 ^ scale := Nat.one_le_two_pow
  have hbit : (1#32 <<< scale).toNat = 2 ^ scale := by
    rw [BitVec.toNat_shiftLeft, Nat.shiftLeft_eq]
    simp only [BitVec.toNat_ofNat]
    omega
  have hone : 1#32 ≤ 1#32 <<< scale := by
    rw [BitVec.le_def, hbit]
    exact hpos
  have hmask : ((1#32 <<< scale) - 1#32).toNat = 2 ^ scale - 1 := by
    rw [BitVec.toNat_sub_of_le hone, hbit]
    rfl
  have hand := Nat.and_le_right
    (n := time.toNat) (m := ((1#32 <<< scale) - 1#32).toNat)
  rw [BitVec.toNat_and]
  omega

/-- The bucket after its time has been noted, before the loop. -/
def noted (i : Fin n) (now : Timeval k) (time : BitVec 32)
    (buckets : Buckets k n) : Buckets k n :=
  Function.update buckets i { buckets i with
    carry := time &&& ((1#32 <<< (buckets i).scale) - 1#32)
    lastRefill := now }

private theorem noted_eq (i : Fin n) (now : Timeval k) (time : BitVec 32)
    (buckets : Buckets k n) (j : Fin n) :
    noted i now time buckets j = { buckets j with
      carry := (noted i now time buckets j).carry
      lastRefill := (noted i now time buckets j).lastRefill } := by
  unfold noted
  by_cases h : j = i
  · subst h
    rw [Function.update_self]
  · rw [Function.update_of_ne h]

private theorem noted_good {clock now : Timeval k} {buckets : Buckets k n}
    (h : Good clock buckets) (i : Fin n) (hclock : clock.Le now)
    (time : BitVec 32) : Good now (noted i now time buckets) := by
  have hsame := noted_eq i now time buckets
  refine ⟨?_, ?_, ?_, ?_, ?_, ?_⟩
  · intro j
    rw [hsame j]
    exact h.filled j
  · intro j
    unfold noted
    by_cases hj : j = i
    · subst hj
      rw [Function.update_self]
      exact .inr ⟨rfl, le_rfl⟩
    · rw [Function.update_of_ne hj]
      exact (h.past j).trans hclock
  · intro j
    unfold noted
    by_cases hj : j = i
    · subst hj
      rw [Function.update_self]
      exact carry_lt (h.scale j)
    · rw [Function.update_of_ne hj]
      exact h.carried j
  · intro j
    rw [hsame j]
    exact h.scale j
  · intro j
    rw [hsame j]
    exact h.index j
  · have hoverflows : overflows (noted i now time buckets) =
        overflows buckets := by
      funext j
      simp only [overflows]
      rw [hsame j]
    rw [hoverflows]
    exact h.acyclic

/-- Numbers of tokens do not matter but for the depths. -/
private theorem Good.of_same {clock : Timeval k} {a b : Buckets k n}
    (h : Good clock a) (hsame : SameBut a b)
    (hfilled : ∀ i, (b i).tokens ≤ (b i).depth) : Good clock b := by
  refine ⟨hfilled, ?_, ?_, ?_, ?_, ?_⟩
  · intro i
    rw [hsame i]
    exact h.past i
  · intro i
    rw [hsame i]
    exact h.carried i
  · intro i
    rw [hsame i]
    exact h.scale i
  · intro i
    rw [hsame i]
    exact h.index i
  · rw [hsame.overflows]
    exact h.acyclic

theorem refillBucket_spec {clock now : Timeval k} {buckets : Buckets k n}
    (h : Good clock buckets) (i : Fin n) (hclock : clock.Le now)
    (hrecent : Recent (buckets i) now) :
    ∃ refilled, (∀ sub : Subtraction, Sound sub →
      refillBucket sub i now buckets = some refilled) ∧
      Good now refilled ∧ RefillsExactly i now buckets := by
  obtain ⟨time, index, hindex, hlookup⟩ := lookup_eq h i hclock hrecent
  obtain ⟨tokens, htokens⟩ : ∃ tokens,
      (buckets i).t2b[index]? = some tokens :=
    ⟨_, Vector.getElem?_eq_getElem hindex⟩
  have hnoted := noted_good h i hclock time
  obtain ⟨refilled, hspill, hspilled⟩ := spill_spec _ n (some i) tokens []
    hnoted.acyclic .nil (by simp) (by simp) hnoted.filled
  have hrefill : ∀ sub : Subtraction, Sound sub →
      refillBucket sub i now buckets = some refilled := by
    intro sub hsub
    unfold refillBucket
    simp only [Option.bind_eq_bind]
    rw [hlookup sub hsub]
    simp only [Option.bind_some]
    rw [htokens]
    exact hspill sub hsub
  have hsame := noted_eq i now time buckets
  have hoverflows : overflows (noted i now time buckets) =
      overflows buckets := by
    funext j
    simp only [overflows]
    rw [hsame j]
  have hadded := hspilled.added
  rw [hoverflows] at hadded
  have hheld : ∀ l, held (noted i now time buckets) l = held buckets l := by
    intro l
    refine held_congr ?_
    intro j _
    rw [hsame j]
  have hroom : ∀ l, room (noted i now time buckets) l = room buckets l := by
    intro l
    unfold room
    congr 1
    refine List.map_congr_left ?_
    intro j _
    rw [hsame j]
  rw [hheld, hroom] at hadded
  exact ⟨refilled, hrefill, hnoted.of_same hspilled.same hspilled.filled,
    time, index, tokens, refilled, hlookup _ wrapping_sound, hindex, htokens,
    hrefill _ wrapping_sound, hrefill _ checked_sound, hadded⟩

/-! ## Calls and runs -/

theorem police_spec {clock : Timeval k} {call : PoliceCall k n}
    {buckets : Buckets k n} (h : Good clock buckets)
    (hclock : clock.Le call.now)
    (hrecent : Recent (buckets call.bucket) call.now) :
    ∃ buckets', (∀ sub : Subtraction, Sound sub →
      police sub call buckets = some buckets') ∧ Good call.now buckets' := by
  obtain ⟨refilled, hrefill, hgood, -⟩ :=
    refillBucket_spec h call.bucket hclock hrecent
  have hlower : ∀ tokens : BitVec 32,
      tokens ≤ (refilled call.bucket).depth →
      Good call.now (setTokens call.bucket tokens refilled) := by
    intro tokens hle
    refine hgood.of_same (setTokens_sameBut _ _ _) ?_
    intro i
    by_cases hi : i = call.bucket
    · subst hi
      rw [setTokens_self]
      exact hle
    · rw [setTokens_other hi]
      exact hgood.filled i
  unfold police
  by_cases hcount : call.count = true
  · by_cases hshort : (refilled call.bucket).tokens <
        policedLen call.len (buckets call.bucket)
    · refine ⟨setTokens call.bucket 0#32 refilled, fun sub hsub => ?_,
        hlower _ (BitVec.le_def.2 (Nat.zero_le _))⟩
      rw [if_pos hcount, policeCount, hrefill sub hsub]
      exact if_pos hshort
    · have hle : policedLen call.len (buckets call.bucket) ≤
          (refilled call.bucket).tokens := BitVec.not_lt.1 hshort
      refine ⟨setTokens call.bucket ((refilled call.bucket).tokens -
        policedLen call.len (buckets call.bucket)) refilled,
        fun sub hsub => ?_, hlower _ ?_⟩
      · rw [if_pos hcount, policeCount, hrefill sub hsub]
        simp only [Option.bind_eq_bind, Option.bind_some]
        rw [if_neg hshort, hsub _ _ hle]
        rfl
      · have hfilled := BitVec.le_def.1 (hgood.filled call.bucket)
        rw [BitVec.le_def, BitVec.toNat_sub_of_le hle]
        omega
  · refine ⟨refilled, fun sub hsub => ?_, hgood⟩
    rw [if_neg hcount, policeConform, hrefill sub hsub]
    rfl

/-- Calls one after the other, the clock not going backward, and none 2^32
seconds after the last refill of its bucket. -/
def Timely (clock : Timeval k) :
    List (PoliceCall k n) → Buckets k n → Prop
  | [], _ => True
  | call :: rest, buckets => clock.Le call.now ∧
      Recent (buckets call.bucket) call.now ∧
      ∀ buckets', police wrapping call buckets = some buckets' →
        Timely call.now rest buckets'

theorem run_spec {clock : Timeval k} {calls : List (PoliceCall k n)}
    {buckets : Buckets k n} (h : Good clock buckets)
    (htimely : Timely clock calls buckets) :
    ∃ buckets', run wrapping calls buckets = some buckets' ∧
      run checked calls buckets = some buckets' ∧
      (∀ i, (buckets' i).tokens ≤ (buckets' i).depth) ∧
      ∀ before call after, calls = before ++ call :: after →
        ∃ s, run wrapping before buckets = some s ∧
          RefillsExactly call.bucket call.now s := by
  induction calls generalizing clock buckets with
  | nil =>
      refine ⟨buckets, rfl, rfl, h.filled, ?_⟩
      intro before call after hcalls
      cases before <;> cases hcalls
  | cons call rest ih =>
      obtain ⟨hclock, hrecent, hrest⟩ := htimely
      obtain ⟨next, hnext, hgood⟩ := police_spec h hclock hrecent
      have hwrapping := hnext _ wrapping_sound
      obtain ⟨buckets', hrun, hchecked, hfilled, hsplit⟩ :=
        ih hgood (hrest next hwrapping)
      refine ⟨buckets', ?_, ?_, hfilled, ?_⟩
      · rw [run, hwrapping, Option.bind_some, hrun]
      · rw [run, hnext _ checked_sound, Option.bind_some, hchecked]
      · intro before other after hcalls
        cases before with
        | nil =>
            obtain ⟨rfl, -⟩ := List.cons.inj hcalls
            obtain ⟨refilled, -, -, hexact⟩ :=
              refillBucket_spec h call.bucket hclock hrecent
            exact ⟨buckets, rfl, hexact⟩
        | cons first before =>
            obtain ⟨rfl, htail⟩ := List.cons.inj hcalls
            obtain ⟨s, hs, hexact⟩ := hsplit before other after htail
            refine ⟨s, ?_, hexact⟩
            rw [run, hwrapping, Option.bind_some, hs]

/-- The buckets as `if_c` prints them. -/
def printedBuckets (k : Nat) (p : Fin n → Printed n) : Buckets k n :=
  fun i => initBucket k (p i)

theorem printedBuckets_good {p : Fin n → Printed n}
    (hacyclic : Acyclic fun i => (p i).overflow) :
    Good (.zero k) (printedBuckets k p) where
  filled _ := BitVec.le_refl _
  past _ := .inr ⟨rfl, le_rfl⟩
  carried _ := by simp [printedBuckets, initBucket]
  scale i := (scaleLoop_spec (p i).maxTime 32 0 rfl (by omega)).1
  index i := (scaleLoop_spec (p i).maxTime 32 0 rfl (by omega)).2
  acyclic := hacyclic

/-- Before the clock has run for 2^32 seconds, in particular where an
`unsigned long` has 32 bits, there is no other condition on it. -/
theorem timely_of_early {clock : Timeval k} {calls : List (PoliceCall k n)}
    {buckets : Buckets k n}
    (hclock : (clock :: calls.map PoliceCall.now).Pairwise Timeval.Le)
    (hearly : ∀ call ∈ calls, call.now.tvSec.toNat < 2 ^ 32) :
    Timely clock calls buckets := by
  induction calls generalizing clock buckets with
  | nil => trivial
  | cons call rest ih =>
      obtain ⟨hfirst, hrest⟩ := List.pairwise_cons.1 hclock
      refine ⟨hfirst call.now List.mem_cons_self, ?_, fun _ _ => ih hrest
        (fun later hlater => hearly later (List.mem_cons_of_mem call hlater))⟩
      have hnow := hearly call List.mem_cons_self
      unfold Recent
      omega

theorem police_run {p : Fin n → Printed n} {calls : List (PoliceCall k n)}
    (hacyclic : Acyclic fun i => (p i).overflow)
    (htimely : Timely (.zero k) calls (printedBuckets k p)) :
    ∃ buckets, run wrapping calls (printedBuckets k p) = some buckets ∧
      run checked calls (printedBuckets k p) = some buckets ∧
      (∀ i, (buckets i).tokens ≤ (buckets i).depth) ∧
      ∀ before call after, calls = before ++ call :: after →
        ∃ s, run wrapping before (printedBuckets k p) = some s ∧
          RefillsExactly call.bucket call.now s :=
  run_spec (printedBuckets_good hacyclic) htimely

/-! Two buckets of 1000 bytes per second, the second one overflowing to the
first one. -/

private def table (scale depth : Nat) : Vector (BitVec 32) timeSteps :=
  Vector.ofFn fun t =>
    BitVec.ofNat 32 (min depth (t * 2 ^ scale * 1000 / 1000000))

private def twoBuckets : Fin 2 → Printed 2
  | 0 => ⟨0, 500, 500000, table 11 500, none⟩
  | 1 => ⟨0, 1500, 2000000, table 13 2000, some 0⟩

private def at_ (seconds microseconds : BitVec 64)
    (h : microseconds.toNat < 1000000) : Timeval 32 :=
  ⟨seconds, microseconds, h⟩

private theorem twoBuckets_acyclic :
    Acyclic fun i => (twoBuckets i).overflow := by
  have hdown : ∀ a b, Relation.TransGen
      (fun a b => (twoBuckets a).overflow = some b) a b → b < a := by
    intro a b h
    have hone : ∀ a b, (twoBuckets a).overflow = some b → b < a := by
      decide
    induction h with
    | single h => exact hone _ _ h
    | tail _ h ih => exact (hone _ _ h).trans ih
  intro i h
  exact lt_irrefl i (hdown i i h)

private def twoCalls : List (PoliceCall 32 2) :=
  [⟨true, 1000, 1, at_ 0 500000 (by decide)⟩,
    ⟨false, 100, 1, at_ 1 400000 (by decide)⟩]

theorem police_run_overflow :
    ∃ buckets, run wrapping twoCalls (printedBuckets 32 twoBuckets) =
        some buckets ∧
      run checked twoCalls (printedBuckets 32 twoBuckets) = some buckets ∧
      (∀ i, (buckets i).tokens ≤ (buckets i).depth) ∧
      ∀ before call after, twoCalls = before ++ call :: after →
        ∃ s, run wrapping before (printedBuckets 32 twoBuckets) = some s ∧
          RefillsExactly call.bucket call.now s := by
  refine police_run twoBuckets_acyclic (timely_of_early ?_ ?_)
  · refine List.pairwise_cons.2 ⟨fun a _ => Timeval.zero_le a, ?_⟩
    refine List.pairwise_cons.2 ⟨?_, List.pairwise_singleton _ _⟩
    intro a ha
    obtain rfl := List.mem_singleton.1 ha
    exact .inl (by decide)
  · decide

/-- In 32 bits no time has passed, and a second is borrowed from it. -/
theorem police_run_late :
    ¬∀ (p : Fin 2 → Printed 2) (calls : List (PoliceCall 32 2)),
      (Acyclic fun i => (p i).overflow) →
      (Timeval.zero 32 :: calls.map PoliceCall.now).Pairwise Timeval.Le →
      ∃ buckets, run checked calls (printedBuckets 32 p) = some buckets := by
  intro h
  obtain ⟨buckets, hrun⟩ := h twoBuckets
    [⟨false, 100, 1, at_ 0 500000 (by decide)⟩,
      ⟨false, 100, 1, at_ (2 ^ 32) 100000 (by decide)⟩]
    twoBuckets_acyclic (by
      refine List.pairwise_cons.2 ⟨fun a _ => Timeval.zero_le a, ?_⟩
      refine List.pairwise_cons.2 ⟨?_, List.pairwise_singleton _ _⟩
      intro a ha
      obtain rfl := List.mem_singleton.1 ha
      exact .inl (by decide))
  have hnone : (run checked
      [⟨false, 100, 1, at_ 0 500000 (by decide)⟩,
        ⟨false, 100, 1, at_ (2 ^ 32) 100000 (by decide)⟩]
      (printedBuckets 32 twoBuckets)).isNone = true := by
    decide +kernel
  rw [hrun] at hnone
  cases hnone

end Tcng.TcmCls
