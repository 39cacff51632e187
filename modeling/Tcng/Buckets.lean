import Tcng.Data
import Tcng.Lib.History

/-! Buckets of the policers in an expression: for an external matcher
(`if_ext.c`), its reader (`tccext.c`), and the C function (`if_c.c`). -/

namespace Tcng

open History

/-- A policer, as far as its bucket is made of it. -/
structure PoliceParams where
  number : BitVec 32
  rate : Option (BitVec 32)
  peakrate : Option (BitVec 32)
  mpu : Option (BitVec 32)
  burst : Option (BitVec 32)
  overflow : Option Bucket
  pragma : List String
  deriving DecidableEq, Repr

/-- The description of a policer contains the policer it overflows to, which
is complete before. -/
structure PoliceTable where
  params : Bucket → PoliceParams
  overflow_lt : ∀ p q, (params p).overflow = some q → q < p

/-- `prm_rate.v` and `prm_burst.v`; `param_reset` does not change them. -/
structure PrmValues where
  rate : BitVec 32
  burst : BitVec 32
  deriving DecidableEq, Repr

def paramGet (params : PoliceParams) (prm : PrmValues) : PrmValues :=
  ⟨params.rate.getD prm.rate, params.burst.getD prm.burst⟩

def PoliceParams.singleRate (params : PoliceParams) : Bool :=
  params.rate.isSome || params.peakrate.isNone

/-- `collect_buckets` with its own `add_bucket`. -/
def collectBuckets {σ : Type} (t : PoliceTable)
    (get : PoliceParams → σ → σ) (addBucket : Bucket → σ → Except Error σ) :
    Data → σ → Except Error σ
  | .police p, s => do
      let s := get (t.params p) s
      let s ←
        match (t.params p).overflow with
        | some q => addBucket q s
        | none => .ok s
      addBucket p s
  | .op _ _ a b c, s => do
      let s ← collectBuckets t get addBucket a s
      let s ← collectBuckets t get addBucket b s
      collectBuckets t get addBucket c s
  | _, s => .ok s

/-- The policers of an expression as `collect_buckets` comes to them. -/
def Data.policers : Data → List Bucket
  | .police p => [p]
  | .op _ _ a b c => a.policers ++ b.policers ++ c.policers
  | _ => []

namespace PoliceTable

variable (t : PoliceTable)

/-- What is passed to `add_bucket`. -/
def added (ps : List Bucket) : List Bucket :=
  ps.flatMap fun p => (t.params p).overflow.toList ++ [p]

@[simp] theorem added_nil : t.added [] = [] := rfl

@[simp] theorem added_append (ps qs : List Bucket) :
    t.added (ps ++ qs) = t.added ps ++ t.added qs := by
  simp [added]

theorem added_single (p : Bucket) :
    t.added [p] = (t.params p).overflow.toList ++ [p] := by
  simp [added]

end PoliceTable

/-! ## Reading buckets -/

/-- A line `bucket number = rate mpu depth initial overflow pragmas`. -/
structure BucketLine where
  number : BitVec 32
  rate : BitVec 32
  mpu : BitVec 32
  depth : BitVec 32
  initial : BitVec 32
  overflow : BitVec 32
  pragmas : List String
  deriving DecidableEq, Repr

/-- No two buckets have the same index, which stands for the address. -/
structure TccextBucket where
  index : BitVec 32
  rate : BitVec 32
  mpu : BitVec 32
  depth : BitVec 32
  initialTokens : BitVec 32
  overflow : Option (BitVec 32)
  pragmas : List String
  deriving DecidableEq, Repr

def findBucket (buckets : List TccextBucket) (index : BitVec 32) :
    Except Error TccextBucket :=
  match buckets.find? (·.index = index) with
  | some bucket => .ok bucket
  | none => .error (.error ("no bucket " ++ toString index.toInt))

def parseBucket (buckets : List TccextBucket) (line : BucketLine) :
    Except Error (List TccextBucket) :=
  if buckets.any (·.index = line.number) then
    .error (.error ("duplicate bucket index " ++ toString line.number.toInt))
  else do
    let overflow ←
      if line.overflow = 0 then .ok none
      else (findBucket buckets line.overflow).map fun b => some b.index
    .ok (⟨line.number, line.rate, line.mpu, line.depth, line.initial,
      overflow, line.pragmas⟩ :: buckets)

def parseBuckets : List BucketLine → List TccextBucket →
    Except Error (List TccextBucket)
  | [], buckets => .ok buckets
  | line :: lines, buckets => do
      let buckets ← parseBucket buckets line
      parseBuckets lines buckets

/-- Each overflow is a bucket that was seen before. -/
def DefinedBefore (seen : List (BitVec 32)) : List BucketLine → Prop
  | [] => True
  | line :: lines =>
      (line.overflow ≠ 0 → line.overflow ∈ seen) ∧
        DefinedBefore (line.number :: seen) lines

/-! ## Buckets for an external matcher -/

namespace IfExt

structure Buckets where
  buckets : List Bucket
  prm : PrmValues
  deriving DecidableEq, Repr

def Buckets.paramGet (params : PoliceParams) (s : Buckets) : Buckets :=
  { s with prm := Tcng.paramGet params s.prm }

section

variable (t : PoliceTable)

def addBucket (p : Bucket) (s : Buckets) : Except Error Buckets :=
  let s := s.paramGet (t.params p)
  if !(t.params p).singleRate then
    .error (.error "if_ext only supports single-rate token bucket policer")
  else if p ∈ s.buckets then .ok s
  else .ok { s with buckets := s.buckets ++ [p] }

def collectBuckets : Data → Buckets → Except Error Buckets :=
  Tcng.collectBuckets t Buckets.paramGet (addBucket t)

/-- `dump_if_ext_expr` for one expression after the other. -/
def collectAll : List Data → Buckets → Except Error Buckets
  | [], s => .ok s
  | d :: ds, s => do
      let s ← collectBuckets t d s
      collectAll ds s

/-- The number that is printed for the bucket to overflow to. -/
def overflowNumber (p : Bucket) : BitVec 32 :=
  match (t.params p).overflow with
  | some q => (t.params q).number
  | none => 0

def dumpBuckets : List Bucket → PrmValues → List BucketLine
  | [], _ => []
  | p :: buckets, prm =>
      let params := t.params p
      let prm := Tcng.paramGet params prm
      ⟨params.number, prm.rate, params.mpu.getD 0, prm.burst, prm.burst,
        overflowNumber t p, params.pragma⟩ :: dumpBuckets buckets prm

/-- The bucket lines for the expressions of a block, from an empty list. -/
def bucketLines (ds : List Data) (prm : PrmValues) :
    Except Error (List BucketLine) := do
  let s ← collectAll t ds ⟨[], prm⟩
  return dumpBuckets t s.buckets s.prm

/-- All that is printed refers to earlier lines, and is accepted. -/
def LinesAccepted (ds : List Data) (prm : PrmValues) : Prop :=
  ∀ lines, bucketLines t ds prm = .ok lines →
    DefinedBefore [] lines ∧ ∃ buckets, parseBuckets lines [] = .ok buckets

end

end IfExt

/-! ## Buckets of the C function -/

namespace IfC

def maxCBuckets : Nat := 1024

/-- A line `INIT_BUCKET`, without what is calculated in floating point; the
place of the overflow bucket is -1 if there is none. -/
structure InitBucket where
  rate : BitVec 32
  mpu : BitVec 32
  depth : BitVec 32
  initial : BitVec 32
  overflow : Option Nat
  totalDepth : Nat
  deriving DecidableEq, Repr

structure Buckets where
  bucket : List (BitVec 32)
  prm : PrmValues
  lines : List InitBucket
  deriving DecidableEq, Repr

def Buckets.paramGet (params : PoliceParams) (s : Buckets) : Buckets :=
  { s with prm := Tcng.paramGet params s.prm }

def lookupBucket (bucket : List (BitVec 32)) (number : BitVec 32) :
    Except Error Nat :=
  match bucket.idxOf? number with
  | some n => .ok n
  | none => .error (.assertion "abort")

section

variable (t : PoliceTable)

/-- `none` if a bucket of the chain has no size, which the code does not
expect. -/
def depthSum (p : Bucket) : Option Nat := do
  let burst ← (t.params p).burst
  match hq : (t.params p).overflow with
  | some q =>
      have := t.overflow_lt p q hq
      let rest ← depthSum q
      return burst.toNat + rest
  | none => return burst.toNat
termination_by p

/-- The end of `add_bucket`, which prints the line. -/
def initBucket (p : Bucket) (overflow : Option Nat) (s : Buckets) :
    Except Error Buckets :=
  let params := t.params p
  match depthSum t p with
  | none => .error (.assertion "prm_burst")
  | some totalDepth =>
      .ok { s with lines := s.lines ++ [⟨s.prm.rate, params.mpu.getD 0,
        s.prm.burst, s.prm.burst, overflow, totalDepth⟩] }

def addBucket (p : Bucket) (s : Buckets) : Except Error Buckets :=
  let params := t.params p
  let s := s.paramGet params
  if !params.singleRate then
    .error (.error "if_c only supports single-rate token bucket policer")
  else if maxCBuckets ≤ s.bucket.length then
    .error (.error "too many buckets in if_c (max 1024)")
  else do
    let s := { s with bucket := s.bucket ++ [params.number] }
    let overflow ←
      match params.overflow with
      | some q => (lookupBucket s.bucket (t.params q).number).map some
      | none => .ok none
    initBucket t p overflow s

def collectBuckets : Data → Buckets → Except Error Buckets :=
  Tcng.collectBuckets t Buckets.paramGet (addBucket t)

end

end IfC

/-! ## What is collected -/

section

variable {σ : Type} {t : PoliceTable} {get : PoliceParams → σ → σ}
  {addBucket : Bucket → σ → Except Error σ} {R : List Bucket → σ → Prop}
  {Stuck : List Bucket → Bucket → Error → Prop}

theorem collectBuckets_went
    (hget : ∀ before params s, R before s → R before (get params s))
    (hadd : ∀ before q s, R before s →
      Went R Stuck before [q] (addBucket q s)) (d : Data) :
    ∀ before s, R before s → Went R Stuck before (t.added d.policers)
      (collectBuckets t get addBucket d s) := by
  induction d with
  | police p =>
      intro before s h
      rw [Data.policers, PoliceTable.added_single, collectBuckets]
      cases hq : (t.params p).overflow with
      | none =>
          refine Went.bind (went_nil (hget before _ s h)) fun s hs => ?_
          exact hadd _ p s hs
      | some q =>
          refine Went.bind (hadd before q _ (hget before _ s h)) fun s hs => ?_
          exact hadd _ p s hs
  | op dsc type a b c iha ihb ihc =>
      intro before s h
      rw [Data.policers, t.added_append, t.added_append, List.append_assoc,
        collectBuckets]
      refine Went.bind (iha before s h) fun s hs => ?_
      exact Went.bind (ihb _ s hs) fun s hs => ihc _ s hs
  | _ => exact fun before s h => went_nil h

/-- Only the bucket a mentioned policer overflows to can come too early. -/
theorem each_added {P : List Bucket → Bucket → Prop}
    (hafter : ∀ before p,
      (∀ q, (t.params p).overflow = some q → q ∈ before) → P before p)
    (ps : List Bucket) :
    Each P (t.added ps) ↔
      Each (fun before p => ∀ q, (t.params p).overflow = some q →
        P (t.added before) q) ps := by
  induction ps using List.reverseRecOn with
  | nil => simp
  | append_singleton ps p ih =>
      rw [t.added_append, each_append, each_concat, ih, t.added_single]
      refine and_congr_right fun _ => ?_
      cases hq : (t.params p).overflow with
      | none => simp [each_cons, hafter _ p, hq]
      | some q => simp [each_cons, hafter _ p, hq]

end

/-! ## What is accepted -/

theorem findBucket_spec (buckets : List TccextBucket) (index : BitVec 32) :
    match findBucket buckets index with
    | .ok _ => index ∈ buckets.map (·.index)
    | .error _ => index ∉ buckets.map (·.index) := by
  rw [findBucket]
  cases h : buckets.find? (·.index = index) with
  | none =>
      have hnone := List.find?_eq_none.mp h
      simp only [List.mem_map, not_exists, not_and]
      exact fun bucket hmem heq => hnone bucket hmem (by simpa using heq)
  | some bucket =>
      have hindex : bucket.index = index := by simpa using List.find?_some h
      exact List.mem_map.mpr ⟨bucket, List.mem_of_find?_eq_some h, hindex⟩

theorem parseBucket_spec (buckets : List TccextBucket) (line : BucketLine) :
    match parseBucket buckets line with
    | .ok after =>
        line.number ∉ buckets.map (·.index) ∧
        (line.overflow ≠ 0 → line.overflow ∈ buckets.map (·.index)) ∧
        after.map (·.index) = line.number :: buckets.map (·.index)
    | .error _ =>
        ¬(line.number ∉ buckets.map (·.index) ∧
          (line.overflow ≠ 0 → line.overflow ∈ buckets.map (·.index))) := by
  have hfind := findBucket_spec buckets line.overflow
  have hany : buckets.any (·.index = line.number) = true ↔
      line.number ∈ buckets.map (·.index) := by
    simp [List.any_eq_true]
  rw [parseBucket]
  by_cases hnumber : buckets.any (·.index = line.number) = true
  · rw [if_pos hnumber]
    exact fun h => h.1 (hany.mp hnumber)
  · have hnew := fun h => hnumber (hany.mpr h)
    rw [if_neg hnumber]
    by_cases hzero : line.overflow = 0
    · rw [if_pos hzero]
      exact ⟨hnew, fun h => absurd hzero h, rfl⟩
    · rw [if_neg hzero]
      cases hf : findBucket buckets line.overflow with
      | ok bucket =>
          rw [hf] at hfind
          exact ⟨hnew, fun _ => hfind, rfl⟩
      | error e =>
          rw [hf] at hfind
          exact fun h => hfind (h.2 hzero)

theorem parseBuckets_iff (lines : List BucketLine)
    (buckets : List TccextBucket) :
    (∃ after, parseBuckets lines buckets = .ok after) ↔
      DefinedBefore (buckets.map (·.index)) lines ∧
      (lines.map (·.number)).Nodup ∧
      ∀ line ∈ lines, line.number ∉ buckets.map (·.index) := by
  induction lines generalizing buckets with
  | nil => simp [parseBuckets, DefinedBefore]
  | cons line lines ih =>
      have hspec := parseBucket_spec buckets line
      rw [parseBuckets]
      cases h : parseBucket buckets line with
      | error e =>
          rw [h] at hspec
          constructor
          · rintro ⟨_, hrun⟩
            cases hrun
          · rintro ⟨hdefined, _, hnew⟩
            exact absurd ⟨hnew line List.mem_cons_self, hdefined.1⟩ hspec
      | ok after =>
          rw [h] at hspec
          obtain ⟨hnew, hoverflow, hindexes⟩ := hspec
          have hrest := ih after
          rw [hindexes] at hrest
          refine Iff.trans hrest ?_
          rw [List.map_cons, List.nodup_cons, DefinedBefore]
          constructor
          · rintro ⟨hdefined, hnodup, hfresh⟩
            refine ⟨⟨hoverflow, hdefined⟩, ⟨?_, hnodup⟩, ?_⟩
            · intro hmem
              obtain ⟨other, hother, heq⟩ := List.mem_map.mp hmem
              exact hfresh other hother (heq ▸ List.mem_cons_self)
            · intro other hother
              rcases List.mem_cons.mp hother with rfl | hother
              · exact hnew
              · exact fun hmem =>
                  hfresh other hother (List.mem_cons_of_mem _ hmem)
          · rintro ⟨⟨_, hdefined⟩, ⟨hline, hnodup⟩, hfresh⟩
            refine ⟨hdefined, hnodup, fun other hother hmem => ?_⟩
            rcases List.mem_cons.mp hmem with heq | hmem
            · exact hline (List.mem_map.mpr ⟨other, hother, heq⟩)
            · exact hfresh other (List.mem_cons_of_mem _ hother) hmem

/-! ## Lines for an external matcher -/

namespace IfExt

variable (t : PoliceTable)

/-- Something in front has the number of the bucket to overflow to. -/
def Named (before : List Bucket) (p : Bucket) : Prop :=
  overflowNumber t p ≠ 0 →
    ∃ q ∈ before, (t.params q).number = overflowNumber t p

theorem map_number_dumpBuckets (ps : List Bucket) (prm : PrmValues) :
    (dumpBuckets t ps prm).map (·.number) =
      ps.map fun p => (t.params p).number := by
  induction ps generalizing prm with
  | nil => rfl
  | cons p ps ih => exact congrArg _ (ih _)

theorem definedBefore_dumpBuckets (ps : List Bucket) (prm : PrmValues)
    (seen : List (BitVec 32)) :
    DefinedBefore seen (dumpBuckets t ps prm) ↔
      Each (fun before p => overflowNumber t p ≠ 0 →
        overflowNumber t p ∈ seen ∨
          ∃ q ∈ before, (t.params q).number = overflowNumber t p) ps := by
  induction ps generalizing prm seen with
  | nil => simp [dumpBuckets, DefinedBefore]
  | cons p ps ih =>
      rw [dumpBuckets, DefinedBefore, each_cons, ih]
      refine and_congr (by simp) (each_congr fun before q _ => ?_)
      simp only [List.mem_cons, exists_eq_or_imp]
      simp only [or_assoc, or_left_comm, eq_comm]

variable {t}

/-- What is in the list after some policers were passed to `add_bucket`. -/
def Collected (t : PoliceTable) (before : List Bucket) (s : Buckets) : Prop :=
  s.buckets = keepNew [] before ∧
    ∀ p ∈ before, (t.params p).singleRate = true

def Refused (t : PoliceTable) (_ : List Bucket) (p : Bucket) (_ : Error) :
    Prop :=
  (t.params p).singleRate = false

theorem addBucket_went {before : List Bucket} {s : Buckets} (q : Bucket)
    (h : Collected t before s) :
    Went (Collected t) (Refused t) before [q] (addBucket t q s) := by
  rw [addBucket]
  cases hrate : (t.params q).singleRate with
  | false => exact ⟨[], q, [], rfl, hrate⟩
  | true =>
      have hrates : ∀ p ∈ before ++ [q],
          (t.params p).singleRate = true := by
        intro p hp
        rcases List.mem_append.mp hp with hp | hp
        · exact h.2 p hp
        · exact List.mem_singleton.mp hp ▸ hrate
      have hkept := keepNew_concat [] before q
      rw [← h.1] at hkept
      by_cases hmem : q ∈ s.buckets
      · rw [if_pos hmem] at hkept
        rw [if_neg (by simp),
          if_pos (show q ∈ (s.paramGet (t.params q)).buckets from hmem)]
        exact ⟨hkept.symm, hrates⟩
      · rw [if_neg hmem] at hkept
        rw [if_neg (by simp),
          if_neg (show q ∉ (s.paramGet (t.params q)).buckets from hmem)]
        exact ⟨hkept.symm, hrates⟩

theorem collectAll_went (ds : List Data) :
    ∀ before s, Collected t before s →
      Went (Collected t) (Refused t) before
        (t.added (ds.flatMap Data.policers)) (collectAll t ds s) := by
  induction ds with
  | nil => exact fun before s h => went_nil h
  | cons d ds ih =>
      intro before s h
      rw [List.flatMap_cons, t.added_append, collectAll]
      refine Went.bind (collectBuckets_went ?_ ?_ d before s h) fun s hs =>
        ih _ s hs
      · exact fun _ _ _ h => h
      · exact fun _ q _ h => addBucket_went q h

theorem Named.mono {before before' : List Bucket} {p : Bucket}
    (hsub : before ⊆ before') (h : Named t before p) : Named t before' p := by
  intro hnumber
  obtain ⟨q, hq, heq⟩ := h hnumber
  exact ⟨q, hsub hq, heq⟩

theorem named_of_mem {before : List Bucket} {p : Bucket}
    (h : ∀ q, (t.params p).overflow = some q → q ∈ before) :
    Named t before p := by
  intro hnumber
  rw [overflowNumber] at hnumber ⊢
  cases hq : (t.params p).overflow with
  | none => simp [hq] at hnumber
  | some q => exact ⟨q, h q hq, rfl⟩

variable (t)

/-- No two policers share a number, and the chain of each mentioned one ends
after its overflow, or goes on with one that earlier policers brought in. -/
def OverflowsMentioned (ds : List Data) : Prop :=
  let ps := ds.flatMap Data.policers
  (∀ p ∈ t.added ps, (t.params p).singleRate = true) →
    (∀ p ∈ t.added ps, ∀ q ∈ t.added ps,
      (t.params p).number = (t.params q).number → p = q) ∧
    Each (fun before p => ∀ q, (t.params p).overflow = some q →
      Named t (t.added before) q) ps

theorem dumpBuckets_accepted_iff (added : List Bucket) (prm : PrmValues) :
    (DefinedBefore [] (dumpBuckets t (keepNew [] added) prm) ∧
      ∃ buckets, parseBuckets (dumpBuckets t (keepNew [] added) prm) [] =
        .ok buckets) ↔
    (∀ p ∈ added, ∀ q ∈ added,
      (t.params p).number = (t.params q).number → p = q) ∧
    Each (Named t) added := by
  have hdefined : DefinedBefore [] (dumpBuckets t (keepNew [] added) prm) ↔
      Each (Named t) (keepNew [] added) := by
    rw [definedBefore_dumpBuckets]
    exact each_congr fun before p _ => by simp [Named]
  have hnodup := List.nodup_map_iff_inj_on (f := fun p => (t.params p).number)
    (nodup_keepNew added)
  simp only [mem_keepNew] at hnodup
  rw [parseBuckets_iff, map_number_dumpBuckets, hnodup, List.map_nil,
    hdefined, each_keepNew (P := Named t) fun hsub h => Named.mono hsub h]
  constructor
  · rintro ⟨heach, _, hinj, _⟩
    exact ⟨hinj, heach⟩
  · rintro ⟨hinj, heach⟩
    exact ⟨heach, heach, hinj, fun line _ => List.not_mem_nil⟩

theorem linesAccepted_iff (ds : List Data) (prm : PrmValues) :
    LinesAccepted t ds prm ↔ OverflowsMentioned t ds := by
  have hwent := collectAll_went (t := t) ds [] ⟨[], prm⟩ ⟨rfl, by simp⟩
  have hadded := each_added (t := t) (fun _ _ h => named_of_mem h)
    (ds.flatMap Data.policers)
  rw [LinesAccepted, OverflowsMentioned, bucketLines, ← hadded]
  cases hrun : collectAll t ds ⟨[], prm⟩ with
  | error e =>
      rw [hrun] at hwent
      obtain ⟨front, q, rest, hsplit, hrate⟩ := hwent
      refine ⟨fun _ hrates => ?_, fun _ lines hlines => by cases hlines⟩
      have htrue := hrates q (by simp [hsplit])
      rw [show (t.params q).singleRate = false from hrate] at htrue
      cases htrue
  | ok s =>
      rw [hrun] at hwent
      obtain ⟨hbuckets, hrates⟩ := hwent
      rw [← dumpBuckets_accepted_iff t _ s.prm]
      rw [List.nil_append] at hbuckets hrates
      rw [← hbuckets]
      constructor
      · exact fun h _ => h _ rfl
      · intro h lines hlines
        obtain rfl := Except.ok.inj hlines
        exact h hrates

end IfExt

/-! ## The array of the C function -/

namespace IfC

variable (t : PoliceTable)

def Known (start : List (BitVec 32)) (before : List Bucket) (q : Bucket) :
    Prop :=
  ∀ r, (t.params q).overflow = some r → (t.params r).number ∈
    start ++ before.map (fun p => (t.params p).number) ++ [(t.params q).number]

/-- Nothing is wrong with the policer itself. -/
def Takes (p : Bucket) : Prop :=
  (t.params p).singleRate = true ∧ (depthSum t p).isSome = true

def Room (start : List (BitVec 32)) (before : List Bucket) : Prop :=
  start.length + before.length < maxCBuckets

variable {t}

theorem lookupBucket_spec (bucket : List (BitVec 32)) (number : BitVec 32) :
    match lookupBucket bucket number with
    | .ok _ => number ∈ bucket
    | .error e => e = .assertion "abort" ∧ number ∉ bucket := by
  rw [lookupBucket]
  cases h : bucket.idxOf? number with
  | none => exact ⟨rfl, List.idxOf?_eq_none_iff.mp h⟩
  | some n =>
      by_contra hnot
      rw [List.idxOf?_eq_none_iff.mpr hnot] at h
      cases h

/-- Each policer got its bucket. -/
def Taken (t : PoliceTable) (start : List (BitVec 32)) :
    List Bucket → Prop :=
  Each fun before q => Room start before ∧ Takes t q ∧ Known t start before q

def Collected (t : PoliceTable) (start : List (BitVec 32))
    (before : List Bucket) (s : Buckets) : Prop :=
  s.bucket = start ++ before.map (fun p => (t.params p).number) ∧
    Taken t start before

/-- The bucket to overflow to is looked for after the rate and the room for
another bucket were checked, and before the sizes are added up. -/
def Refused (t : PoliceTable) (start : List (BitVec 32))
    (before : List Bucket) (q : Bucket) (e : Error) : Prop :=
  Taken t start before ∧
    if e = .assertion "abort" then
      (t.params q).singleRate = true ∧ Room start before ∧
        ¬Known t start before q
    else
      ¬(Room start before ∧ Takes t q) ∧
        (Room start before → (t.params q).singleRate = true →
          Known t start before q)

theorem initBucket_went {start : List (BitVec 32)} {before : List Bucket}
    {s : Buckets} {q : Bucket} (overflow : Option Nat)
    (hbucket : s.bucket =
      start ++ (before ++ [q]).map fun p => (t.params p).number)
    (htaken : Taken t start before)
    (hspace : Room start before) (hrate : (t.params q).singleRate = true)
    (hknown : Known t start before q) :
    Went (Collected t start) (Refused t start) before [q]
      (initBucket t q overflow s) := by
  rw [initBucket]
  cases hdepth : depthSum t q with
  | none =>
      refine ⟨[], q, [], rfl, ?_⟩
      rw [List.append_nil, Refused, if_neg (by decide)]
      exact ⟨htaken, by simp [Takes, hdepth], fun _ _ => hknown⟩
  | some totalDepth =>
      refine ⟨hbucket, (each_concat before q).mpr ⟨htaken, hspace, ?_, hknown⟩⟩
      exact ⟨hrate, by rw [hdepth]; rfl⟩

theorem addBucket_went {start : List (BitVec 32)} {before : List Bucket}
    {s : Buckets} (q : Bucket) (h : Collected t start before s) :
    Went (Collected t start) (Refused t start) before [q]
      (addBucket t q s) := by
  obtain ⟨hbucket, htaken⟩ := h
  replace hbucket : (s.paramGet (t.params q)).bucket =
    start ++ before.map fun p => (t.params p).number := hbucket
  rw [addBucket]
  generalize s.paramGet (t.params q) = s at hbucket ⊢
  have hlength : s.bucket.length = start.length + before.length := by
    simp [hbucket]
  have hother : ∀ message, ¬(Room start before ∧
      (t.params q).singleRate = true) → Went (Collected t start)
        (Refused t start) before [q] (.error (.error message)) := by
    intro message hwrong
    refine ⟨[], q, [], rfl, ?_⟩
    rw [List.append_nil, Refused, if_neg (by simp)]
    exact ⟨htaken, fun h => hwrong ⟨h.1, h.2.1⟩,
      fun hroom hrate => absurd ⟨hroom, hrate⟩ hwrong⟩
  cases hrate : (t.params q).singleRate with
  | false => exact hother _ (by simp [hrate])
  | true =>
      simp only [Bool.not_true, Bool.false_eq_true, if_false]
      by_cases hroom : maxCBuckets ≤ s.bucket.length
      · have hfull : ¬Room start before := by
          rw [Room, ← hlength]
          exact Nat.not_lt.mpr hroom
        rw [if_pos hroom]
        exact hother _ fun h => hfull h.1
      · have hspace : Room start before := by
          rw [Room, ← hlength]
          exact Nat.not_le.mp hroom
        rw [if_neg hroom]
        have hafter : s.bucket ++ [(t.params q).number] =
            start ++ (before ++ [q]).map fun p => (t.params p).number := by
          simp [hbucket]
        cases hoverflow : (t.params q).overflow with
        | none =>
            refine initBucket_went none hafter htaken hspace hrate ?_
            exact fun r hr => by simp [hoverflow] at hr
        | some r =>
            have hlookup := lookupBucket_spec
              (s.bucket ++ [(t.params q).number]) (t.params r).number
            have hknown : Known t start before q ↔ (t.params r).number ∈
                s.bucket ++ [(t.params q).number] := by
              simp [Known, hoverflow, hbucket]
            simp only
            cases hl : lookupBucket (s.bucket ++ [(t.params q).number])
              (t.params r).number with
            | ok n =>
                rw [hl] at hlookup
                exact initBucket_went (some n) hafter htaken hspace hrate
                  (hknown.mpr hlookup)
            | error e =>
                rw [hl] at hlookup
                obtain ⟨rfl, hnot⟩ := hlookup
                refine ⟨[], q, [], rfl, ?_⟩
                rw [List.append_nil, Refused, if_pos rfl]
                exact ⟨htaken, hrate, hspace, fun hk => hnot (hknown.mp hk)⟩

theorem known_of_mem {start : List (BitVec 32)} {before : List Bucket}
    {q : Bucket}
    (h : ∀ r, (t.params q).overflow = some r → r ∈ before) :
    Known t start before q := by
  intro r hr
  have hmem := List.mem_map_of_mem (f := fun p => (t.params p).number) (h r hr)
  simp [hmem]

variable (t)

/-- Unless something else is wrong before, the chain of each mentioned policer
ends after its overflow, or goes on with a number that is in the array. -/
def OverflowsMentioned (start : List (BitVec 32)) (d : Data) : Prop :=
  Each (fun before p => ∀ q, (t.params p).overflow = some q →
    (∀ x ∈ t.added before, Takes t x) → Room start (t.added before) →
    (t.params q).singleRate = true → Known t start (t.added before) q)
    d.policers

theorem collectBuckets_aborts_iff (d : Data) (s : Buckets) :
    collectBuckets t d s ≠ .error (.assertion "abort") ↔
      OverflowsMentioned t s.bucket d := by
  have hwent : Went (Collected t s.bucket) (Refused t s.bucket) []
      (t.added d.policers) (collectBuckets t d s) := by
    refine collectBuckets_went ?_ ?_ d [] s ⟨by simp, each_nil⟩
    · exact fun _ _ _ h => h
    · exact fun _ q _ h => addBucket_went q h
  rw [OverflowsMentioned, ← each_added (t := t) (P := fun before q =>
    (∀ x ∈ before, Takes t x) → Room s.bucket before →
      (t.params q).singleRate = true → Known t s.bucket before q)
    fun _ _ h _ _ _ => known_of_mem h]
  constructor
  · intro hrun before q after hsplit htakes hroom hrate
    cases hresult : collectBuckets t d s with
    | ok after =>
        rw [hresult] at hwent
        exact (hwent.2 before q _ hsplit).2.2
    | error e =>
        have habort : e ≠ .assertion "abort" := fun he =>
          hrun (hresult.trans (congrArg _ he))
        rw [hresult] at hwent
        obtain ⟨front, x, rest, hfront, hrefused⟩ := hwent
        rw [Refused, if_neg habort, List.nil_append] at hrefused
        obtain ⟨htaken, hwrong, hlooked⟩ := hrefused
        rcases split_cases (hsplit.symm.trans hfront) with
          ⟨between, rfl⟩ | ⟨rfl, rfl⟩ | ⟨between, rfl⟩
        · exact (htaken before q between rfl).2.2
        · exact hlooked hroom hrate
        · -- what went wrong before is excluded
          refine absurd ⟨?_, htakes x (by simp)⟩ hwrong
          rw [Room, List.length_append] at hroom
          rw [Room]
          omega
  · intro heach hrun
    rw [hrun] at hwent
    obtain ⟨before, q, after, hsplit, hrefused⟩ := hwent
    rw [Refused, if_pos rfl, List.nil_append] at hrefused
    obtain ⟨htaken, hrate, hroom, hunknown⟩ := hrefused
    refine hunknown (heach before q after hsplit (fun x hx => ?_) hroom hrate)
    obtain ⟨front, rest, rfl⟩ := List.append_of_mem hx
    exact (htaken front x rest rfl).2.1

end IfC

theorem collectBuckets_inOrder_iff (t : PoliceTable) :
    (∀ ds prm, IfExt.LinesAccepted t ds prm ↔ IfExt.OverflowsMentioned t ds) ∧
    ∀ d s, IfC.collectBuckets t d s ≠ .error (.assertion "abort") ↔
      IfC.OverflowsMentioned t s.bucket d :=
  ⟨IfExt.linesAccepted_iff t, IfC.collectBuckets_aborts_iff t⟩

/-- Each policer overflows to the one before it. -/
private def chain : PoliceTable where
  params p := ⟨.ofNat 32 (p + 1), some 1000, none, none, some 1500,
    if p = 0 then none else some (p - 1), []⟩
  overflow_lt p q h := by
    split at h
    · cases h
    · next hp =>
        obtain rfl := Option.some.inj h
        exact Nat.sub_one_lt hp

/-- Only the last policer of a chain of three is mentioned. -/
theorem collectBuckets_chainOfThree :
    (¬∀ (t : PoliceTable) (d : Data) (prm : PrmValues),
      IfExt.LinesAccepted t [d] prm) ∧
    ¬∀ (t : PoliceTable) (d : Data) (s : IfC.Buckets),
      IfC.collectBuckets t d s ≠ .error (.assertion "abort") := by
  constructor
  · intro h
    have hdefined := (h chain (.conform 2) ⟨0, 0⟩ _ rfl).1.1 (by decide)
    exact absurd hdefined (by decide)
  · intro h
    exact h chain (.conform 2) ⟨[], ⟨0, 0⟩, []⟩ rfl

end Tcng
