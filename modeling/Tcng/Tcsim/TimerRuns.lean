import Mathlib.Data.Option.Basic
import Tcng.Tcsim.Timer

/-!
Every run of the timers: the list is sorted, and each addition of a timer has
its own run, at its time, or its deletion.
-/

namespace Tcng.Tcsim

/-! ## The order of times -/

private theorem JiffVal.toLex_injective :
    Function.Injective fun v : JiffVal => toLex (v.jiffies, v.ujiffies) := by
  intro a b h
  cases a
  cases b
  simpa using h

instance : LinearOrder JiffVal :=
  LinearOrder.lift' (fun v : JiffVal => toLex (v.jiffies, v.ujiffies))
    JiffVal.toLex_injective

theorem JiffVal.lt_iff {a b : JiffVal} :
    a < b ↔ a.jiffies < b.jiffies ∨
      a.jiffies = b.jiffies ∧ a.ujiffies < b.ujiffies :=
  Prod.Lex.toLex_lt_toLex

theorem JiffVal.le_iff {a b : JiffVal} :
    a ≤ b ↔ a.jiffies < b.jiffies ∨
      a.jiffies = b.jiffies ∧ a.ujiffies ≤ b.ujiffies :=
  Prod.Lex.toLex_le_toLex

theorem jiffvalCmp_neg {a b : JiffVal} : jiffvalCmp a b < 0 ↔ a < b := by
  rw [JiffVal.lt_iff]
  unfold jiffvalCmp
  grind

def TimerList.expiry (record : TimerList) : JiffVal :=
  ⟨record.expires, record.expiresUjiffies⟩

theorem timerLt_iff {a b : TimerList} :
    timerLt a b = true ↔ a.expiry < b.expiry := by
  rw [JiffVal.lt_iff]
  unfold timerLt TimerList.expiry
  grind

theorem timerLe_iff {a b : TimerList} :
    timerLe a b = true ↔ a.expiry ≤ b.expiry := by
  rw [JiffVal.le_iff]
  unfold timerLe TimerList.expiry
  grind

/-! ## The list -/

variable {τ : Type}

namespace Timers

def expiry (s : Timers τ) (timer : τ) : JiffVal :=
  (s.timer timer).expiry

theorem insertTimer_perm (record : τ → TimerList) (timer : τ)
    (l : List τ) : (insertTimer record timer l).Perm (timer :: l) := by
  induction l with
  | nil => exact .refl _
  | cons walk rest ih =>
      unfold insertTimer
      split
      · exact .refl _
      · exact (ih.cons walk).trans (.swap timer walk rest)

theorem insertTimer_pairwise {record : τ → TimerList} {timer : τ}
    {R : τ → τ → Prop} {l : List τ} (hl : l.Pairwise R)
    (horder : ∀ a ∈ l, ∀ b ∈ l, R a b →
      (record a).expiry ≤ (record b).expiry)
    (hbefore : ∀ a ∈ l,
      (record a).expiry ≤ (record timer).expiry → R a timer)
    (hafter : ∀ b ∈ l,
      (record timer).expiry < (record b).expiry → R timer b) :
    (insertTimer record timer l).Pairwise R := by
  induction l with
  | nil => exact List.pairwise_singleton R timer
  | cons walk rest ih =>
      obtain ⟨hwalk, hrest⟩ := List.pairwise_cons.1 hl
      unfold insertTimer
      split
      next hlater =>
        have hfirst : (record timer).expiry < (record walk).expiry := by
          simpa [← not_le, ← timerLe_iff] using hlater
        refine List.pairwise_cons.2 ⟨?_, hl⟩
        intro b hb
        rcases List.mem_cons.1 hb with rfl | hin
        · exact hafter b List.mem_cons_self hfirst
        · exact hafter b hb (hfirst.trans_le
            (horder walk List.mem_cons_self b hb (hwalk b hin)))
      next hearlier =>
        have hle : (record walk).expiry ≤ (record timer).expiry := by
          simpa [← timerLe_iff] using hearlier
        refine List.pairwise_cons.2 ⟨?_, ih hrest
          (fun a ha b hb => horder a (.tail _ ha) b (.tail _ hb))
          (fun a ha => hbefore a (.tail _ ha))
          (fun b hb => hafter b (.tail _ hb))⟩
        intro b hb
        rcases List.mem_cons.1
            ((insertTimer_perm record timer rest).mem_iff.1 hb) with rfl | hin
        · exact hbefore walk List.mem_cons_self hle
        · exact hwalk b hin

/-- What adding a timer changes, once its time has been set. -/
structure Added (timer : τ) (record : TimerList) (s s' : Timers τ) :
    Prop where
  now : s'.now = s.now
  jiffies : s'.jiffies = s.jiffies
  due : s.now ≤ record.expiry
  timers : s'.timers = insertTimer s'.timer timer s.timers
  self : s'.expiry timer = record.expiry
  other : ∀ t, t ≠ timer → s'.expiry t = s.expiry t

section

variable {timer : τ} {record : TimerList} {s s' : Timers τ}

theorem addHiresTimer_added [DecidableEq τ]
    (h : (s.setTimer timer record).addHiresTimer timer = .ok s') :
    Added timer record s s' := by
  simp only [addHiresTimer] at h
  split at h
  · cases h
  next hnot =>
    injection h with h
    subst h
    have hself : ((s.setTimer timer record).timer timer) = record := by
      simp [setTimer]
    refine ⟨rfl, rfl, ?_, rfl, congrArg TimerList.expiry hself, ?_⟩
    · have hlt : ¬record.expiry < s.now := by
        intro hlt
        rw [hself] at hnot
        exact hnot (timerLt_iff.2 hlt)
      exact not_lt.1 hlt
    · intro t ht
      simp [expiry, setTimer, ht]

theorem Added.perm (h : Added timer record s s') :
    s'.timers.Perm (timer :: s.timers) := by
  rw [h.timers]
  exact insertTimer_perm s'.timer timer s.timers

theorem Added.kept (h : Added timer record s s') (hnot : timer ∉ s.timers)
    {t : τ} (ht : t ∈ s.timers) : s'.expiry t = s.expiry t :=
  h.other t (ne_of_mem_of_not_mem ht hnot)

end

theorem delTimer_now [DecidableEq τ] (timer : τ) (s : Timers τ) :
    (s.delTimer timer).2.now = s.now := by
  unfold delTimer
  split <;> rfl

theorem modTimer_ok [DecidableEq τ] {timer : τ} {expires res : Nat}
    {s s' : Timers τ} (h : s.modTimer timer expires = .ok (res, s')) :
    (s.delTimer timer).1 = res ∧
      ((s.delTimer timer).2.setTimer timer ⟨expires, 0⟩).addHiresTimer timer =
        .ok s' := by
  have htwice : ((s.delTimer timer).2.setTimer timer ⟨expires, 0⟩).setTimer
      timer ⟨expires, 0⟩ =
        (s.delTimer timer).2.setTimer timer ⟨expires, 0⟩ := by
    simp only [setTimer]
    congr 1
    funext t
    by_cases ht : t = timer <;> simp [ht]
  have hself : (((s.delTimer timer).2.setTimer timer ⟨expires, 0⟩).timer
      timer).expires = expires := by
    simp [setTimer]
  simp only [modTimer, addTimer, hself, htwice] at h
  cases hadd : addHiresTimer timer
      ((s.delTimer timer).2.setTimer timer ⟨expires, 0⟩) with
  | error text =>
      rw [hadd] at h
      cases h
  | ok added =>
      rw [hadd] at h
      obtain ⟨hres, rfl⟩ : (s.delTimer timer).1 = res ∧ added = s' := by
        simpa using h
      exact ⟨hres, rfl⟩

theorem nextDue_eq_some {next : JiffVal} {this : τ} {s : Timers τ}
    (h : s.nextDue next = some this) :
    ∃ rest, s.timers = this :: rest ∧ s.expiry this ≤ next := by
  unfold nextDue at h
  split at h
  · cases h
  next first rest htimers =>
    split at h
    next hdue =>
      obtain rfl := Option.some.inj h
      exact ⟨rest, htimers, timerLe_iff.1 hdue⟩
    next => cases h

theorem later_of_nextDue {next : JiffVal} {s : Timers τ}
    (hsorted : s.timers.Pairwise fun a b => s.expiry a ≤ s.expiry b)
    (h : s.nextDue next = none) :
    ∀ timer ∈ s.timers, next < s.expiry timer := by
  intro timer htimer
  unfold nextDue at h
  split at h
  next hnone => simp [hnone] at htimer
  next first rest htimers =>
    split at h
    · cases h
    next hlater =>
      have hfirst : next < s.expiry first :=
        not_le.1 (fun hdue => hlater (timerLe_iff.2 hdue))
      rw [htimers] at hsorted htimer
      rcases List.mem_cons.1 htimer with rfl | hin
      · exact hfirst
      · exact hfirst.trans_le (List.rel_of_pairwise_cons hsorted hin)

end Timers

/-! ## The events -/

/-- In the events of one timer, each addition is followed by its deletion or by
its one run, at its expiry; only the last one may be still open. -/
inductive Accounted (now : JiffVal) (isOpen : JiffVal → Prop) :
    List (TimerEvent τ) → Prop
  | nil : Accounted now isOpen []
  | stillOpen {timer expiry} (h : isOpen expiry) :
      Accounted now isOpen [.added timer expiry]
  | deleted {timer expiry rest} (h : Accounted now isOpen rest) :
      Accounted now isOpen (.added timer expiry :: .deleted timer :: rest)
  | ran {timer expiry rest} (hdue : expiry ≤ now)
      (h : Accounted now isOpen rest) :
      Accounted now isOpen
        (.added timer expiry :: .ran timer expiry :: rest)

abbrev Settled (now : JiffVal) : List (TimerEvent τ) → Prop :=
  Accounted now fun _ => False

theorem Settled.append {now : JiffVal} {isOpen : JiffVal → Prop}
    {done tail : List (TimerEvent τ)} (hdone : Settled now done)
    (htail : Accounted now isOpen tail) :
    Accounted now isOpen (done ++ tail) := by
  induction hdone with
  | nil => exact htail
  | stillOpen h => exact h.elim
  | deleted h ih => exact ih.deleted
  | ran hdue h ih => exact ih.ran hdue

theorem Settled.mono {now later : JiffVal} (hlater : now ≤ later)
    {done : List (TimerEvent τ)} (hdone : Settled now done) :
    Settled later done := by
  induction hdone with
  | nil => exact .nil
  | stillOpen h => exact h.elim
  | deleted h ih => exact ih.deleted
  | ran hdue h ih => exact ih.ran (hdue.trans hlater)

variable [DecidableEq τ]

/-- The timers that an event leaves pending, in the order of insertion. -/
def TimerEvent.pending (l : List τ) : TimerEvent τ → List τ
  | .added timer _ => l ++ [timer]
  | .deleted timer => l.erase timer
  | .ran timer _ => l.erase timer
  | .advanced _ _ => l

def pending (log : List (TimerEvent τ)) : List τ :=
  log.foldl TimerEvent.pending []

def TimerEvent.isOf (timer : τ) : TimerEvent τ → Bool
  | .added t _ => t = timer
  | .deleted t => t = timer
  | .ran t _ => t = timer
  | .advanced _ _ => false

def eventsOf (timer : τ) (log : List (TimerEvent τ)) : List (TimerEvent τ) :=
  log.filter (TimerEvent.isOf timer)

theorem pending_append (log : List (TimerEvent τ)) (event : TimerEvent τ) :
    pending (log ++ [event]) = event.pending (pending log) := by
  simp [pending, List.foldl_append]

theorem eventsOf_append (timer : τ) (log : List (TimerEvent τ))
    (event : TimerEvent τ) :
    eventsOf timer (log ++ [event]) =
      eventsOf timer log ++ if event.isOf timer then [event] else [] := by
  unfold eventsOf
  rw [List.filter_append]
  cases h : event.isOf timer <;> simp [h]

/-! ## The invariant -/

/-- `a` comes before `b` in a list that is sorted, ties in the order `order`. -/
def Before (s : Timers τ) (order : List τ) (a b : τ) : Prop :=
  s.expiry a < s.expiry b ∨
    s.expiry a = s.expiry b ∧ [a, b].Sublist order

omit [DecidableEq τ] in
theorem Before.expiry_le {s : Timers τ} {order : List τ} {a b : τ}
    (h : Before s order a b) : s.expiry a ≤ s.expiry b := by
  rcases h with hlt | ⟨heq, -⟩
  · exact hlt.le
  · exact heq.le

structure Timers.Good (s : Timers τ) (log : List (TimerEvent τ)) : Prop where
  nodup : s.timers.Nodup
  same : s.timers.Perm (Tcsim.pending log)
  sorted : s.timers.Pairwise (Before s (Tcsim.pending log))
  current : ∀ timer ∈ s.timers, s.now ≤ s.expiry timer
  served : ∀ timer, ∃ done, Settled s.now done ∧
    eventsOf timer log = done ++
      if timer ∈ s.timers then [.added timer (s.expiry timer)] else []
  mirror : s.jiffies = s.now.jiffies

namespace Timers.Good

variable {s s' : Timers τ} {log : List (TimerEvent τ)}

/-- What an event of another timer leaves as it was. -/
private theorem served_other {other : τ} (h : s.Good log) {event : TimerEvent τ} (hof : event.isOf other = false)
    (hnow : s.now ≤ s'.now)
    (hmem : other ∈ s'.timers ↔ other ∈ s.timers)
    (hexpiry : s'.expiry other = s.expiry other) :
    ∃ done, Settled s'.now done ∧
      eventsOf other (log ++ [event]) = done ++
        if other ∈ s'.timers then [.added other (s'.expiry other)]
        else [] := by
  obtain ⟨done, hdone, hevents⟩ := h.served other
  refine ⟨done, hdone.mono hnow, ?_⟩
  simp only [eventsOf_append, hof, hevents, hmem, hexpiry]
  simp

theorem add {timer : τ} {record : TimerList} (h : s.Good log)
    (hnot : timer ∉ s.timers)
    (hadd : (s.setTimer timer record).addHiresTimer timer = .ok s') :
    s'.Good (log ++ [.added timer record.expiry]) := by
  have hadded := Timers.addHiresTimer_added hadd
  have hkept : ∀ t ∈ s.timers, s'.expiry t = s.expiry t :=
    fun t => hadded.kept hnot
  have hperm := hadded.perm
  have hmem : ∀ t, t ∈ s'.timers ↔ t = timer ∨ t ∈ s.timers := by
    intro t
    rw [hperm.mem_iff, List.mem_cons]
  have hpending : pending (log ++ [.added timer record.expiry]) =
      pending log ++ [timer] := pending_append log _
  refine ⟨?nodup, ?same, ?sorted, ?current, ?served, ?mirror⟩
  case nodup => exact hperm.nodup_iff.2 (List.nodup_cons.2 ⟨hnot, h.nodup⟩)
  case same =>
    rw [hpending]
    exact hperm.trans ((h.same.cons timer).trans
      (List.perm_append_singleton timer _).symm)
  case sorted =>
    rw [hpending, hadded.timers]
    refine Timers.insertTimer_pairwise ?_ ?_ ?_ ?_
    · refine h.sorted.imp_of_mem ?_
      intro a b ha hb hbefore
      rcases hbefore with hlt | ⟨heq, hsub⟩
      · left
        exact (hkept a ha).trans_lt (hlt.trans_eq (hkept b hb).symm)
      · right
        exact ⟨(hkept a ha).trans (heq.trans (hkept b hb).symm),
          hsub.trans (List.sublist_append_left _ _)⟩
    · intro a _ b _ hbefore
      exact hbefore.expiry_le
    · intro a ha hle
      rcases hle.lt_or_eq with hlt | heq
      · exact .inl hlt
      · exact .inr ⟨heq, (List.singleton_sublist.2
          (h.same.mem_iff.1 ha)).append (.refl [timer])⟩
    · intro b _ hlt
      exact .inl hlt
  case current =>
    intro t ht
    rw [hadded.now]
    rcases (hmem t).1 ht with rfl | hin
    · exact hadded.due.trans_eq hadded.self.symm
    · exact (h.current t hin).trans_eq (hkept t hin).symm
  case served =>
    intro t
    by_cases ht : t = timer
    · subst ht
      obtain ⟨done, hdone, hevents⟩ := h.served t
      refine ⟨done, hadded.now ▸ hdone, ?_⟩
      rw [eventsOf_append, hevents, if_neg hnot, if_pos ((hmem t).2 (.inl rfl))]
      simp [TimerEvent.isOf, hadded.self]
    · refine h.served_other ?_ hadded.now.ge ?_ (hadded.other t ht)
      · simpa [TimerEvent.isOf] using Ne.symm ht
      · rw [hmem t]
        simp [ht]
  case mirror =>
    rw [hadded.jiffies, hadded.now]
    exact h.mirror

/-- A timer leaves the list, with an event that ends its last addition. -/
private theorem remove {timer : τ} {event : TimerEvent τ} (h : s.Good log)
    (hin : timer ∈ s.timers)
    (hpending : event.pending (pending log) = (pending log).erase timer)
    (hof : ∀ t, event.isOf t = decide (timer = t))
    (htimers : s'.timers = s.timers.erase timer)
    (hrecords : s'.timer = s.timer) (hnow : s.now ≤ s'.now)
    (hcurrent : ∀ t ∈ s'.timers, s'.now ≤ s.expiry t)
    (hended : Settled s'.now [.added timer (s.expiry timer), event])
    (hmirror : s'.jiffies = s'.now.jiffies) :
    s'.Good (log ++ [event]) := by
  have hexpiry : s'.expiry = s.expiry := by
    funext t
    simp [Timers.expiry, hrecords]
  have hmem : ∀ t, t ∈ s'.timers ↔ t ≠ timer ∧ t ∈ s.timers := by
    intro t
    rw [htimers, h.nodup.mem_erase_iff]
  refine ⟨?nodup, ?same, ?sorted, ?current, ?served, hmirror⟩
  case nodup =>
    rw [htimers]
    exact h.nodup.erase timer
  case same =>
    rw [htimers, pending_append, hpending]
    exact h.same.erase timer
  case sorted =>
    rw [pending_append, hpending, htimers]
    refine (h.sorted.sublist List.erase_sublist).imp_of_mem ?_
    intro a b ha hb hbefore
    have hne : ∀ t ∈ s.timers.erase timer, t ≠ timer := by
      intro t ht
      exact ((hmem t).1 (htimers ▸ ht)).1
    rcases hbefore with hlt | ⟨heq, hsub⟩
    · exact .inl (by rwa [hexpiry])
    · refine .inr ⟨by rwa [hexpiry], ?_⟩
      have herase := hsub.erase timer
      rwa [List.erase_of_not_mem] at herase
      simp [(hne a ha).symm, (hne b hb).symm]
  case current =>
    intro t ht
    rw [hexpiry]
    exact hcurrent t ht
  case served =>
    intro t
    by_cases ht : t = timer
    · subst ht
      obtain ⟨done, hdone, hevents⟩ := h.served t
      refine ⟨done ++ [.added t (s.expiry t), event],
        (hdone.mono hnow).append hended, ?_⟩
      have hgone : t ∉ s'.timers := fun hstill => ((hmem t).1 hstill).1 rfl
      rw [eventsOf_append, hevents, if_pos hin, if_neg hgone, hof t]
      simp
    · refine h.served_other ?_ hnow ?_ (congrFun hexpiry t)
      · simpa [hof t] using Ne.symm ht
      · rw [hmem t]
        simp [ht]

theorem delete {timer : τ} (h : s.Good log) :
    (s.delTimer timer).2.Good
      (log ++ TimerSystem.deletedEvents timer (s.delTimer timer).1) ∧
    timer ∉ (s.delTimer timer).2.timers := by
  unfold Timers.delTimer
  split
  next hin =>
    refine ⟨?_, h.nodup.not_mem_erase⟩
    refine h.remove hin rfl (fun _ => rfl) rfl rfl le_rfl ?_ ?_ h.mirror
    · intro t ht
      exact h.current t (List.mem_of_mem_erase ht)
    · exact .deleted .nil
  next hnot =>
    refine ⟨?_, hnot⟩
    simpa [TimerSystem.deletedEvents] using h

theorem modify {timer : τ} {expires res : Nat} (h : s.Good log)
    (hmod : s.modTimer timer expires = .ok (res, s')) :
    s'.Good (log ++ TimerSystem.deletedEvents timer res ++
      [.added timer ⟨expires, 0⟩]) := by
  obtain ⟨rfl, hadd⟩ := Timers.modTimer_ok hmod
  obtain ⟨hdeleted, hnot⟩ := h.delete
  exact hdeleted.add hnot hadd

/-- The loop takes the first timer off the list, and starts its function. -/
theorem start {this : τ} {next : JiffVal} (h : s.Good log)
    (hnext : s.nextDue next = some this) :
    (s.startTimer this).Good
        (log ++ [.ran this (s.startTimer this).now]) ∧
      s.now ≤ (s.startTimer this).now ∧ (s.startTimer this).now ≤ next := by
  obtain ⟨rest, htimers, hdue⟩ := Timers.nextDue_eq_some hnext
  have hin : this ∈ s.timers := htimers ▸ List.mem_cons_self
  have hsorted := h.sorted
  rw [htimers] at hsorted
  have herase : s.timers.erase this = s.timers.tail := by
    rw [htimers, List.erase_cons_head, List.tail_cons]
  refine ⟨?_, h.current this hin, hdue⟩
  refine h.remove hin rfl (fun _ => rfl) herase.symm rfl
    (h.current this hin) ?_ (.ran le_rfl .nil) rfl
  intro t ht
  rw [Timers.startTimer, htimers] at ht
  exact (List.rel_of_pairwise_cons hsorted ht).expiry_le

/-- Nothing is due when the loop ends. -/
theorem later {next : JiffVal} (h : s.Good log)
    (hnext : s.nextDue next = none) :
    ∀ timer ∈ s.timers, next < s.expiry timer :=
  Timers.later_of_nextDue (h.sorted.imp Before.expiry_le) hnext

/-- A result of `advance_time` changes no timer. -/
theorem advanced (h : s.Good log) (next : JiffVal) (result : Int) :
    s.Good (log ++ [.advanced next result]) := by
  refine ⟨h.nodup, ?_, ?_, h.current, ?_, h.mirror⟩
  · rw [pending_append]
    exact h.same
  · rw [pending_append]
    exact h.sorted
  · intro t
    exact h.served_other rfl le_rfl .rfl rfl

theorem arrive {next : JiffVal} (h : s.Good log) (hahead : s.now ≤ next)
    (hlater : ∀ timer ∈ s.timers, next < s.expiry timer) :
    (s.arrive next).Good log := by
  refine ⟨h.nodup, h.same, h.sorted, fun t ht => (hlater t ht).le, ?_, rfl⟩
  intro t
  obtain ⟨done, hdone, hevents⟩ := h.served t
  exact ⟨done, hdone.mono hahead, hevents⟩

/-- The events of every timer, under any condition that holds of the pending
ones. -/
theorem accounted (h : s.Good log) (isOpen : τ → JiffVal → Prop)
    (hopen : ∀ timer ∈ s.timers, isOpen timer (s.expiry timer))
    (timer : τ) : Accounted s.now (isOpen timer) (eventsOf timer log) := by
  obtain ⟨done, hdone, hevents⟩ := h.served timer
  rw [hevents]
  split
  next hin => exact hdone.append (.stillOpen (hopen timer hin))
  next => exact hdone.append .nil

end Timers.Good

/-! ## Steps and runs -/

namespace TimerSystem

/-- After each success of `advance_time`, what was due has run, unless it was
deleted, and what was not due is pending. -/
def Punctual (log : List (TimerEvent τ)) : Prop :=
  ∀ older next newer, log = older ++ .advanced next 0 :: newer →
    ∀ timer, Accounted next (next < ·) (eventsOf timer older)

private theorem Punctual.append {log : List (TimerEvent τ)}
    (h : Punctual log) {event : TimerEvent τ}
    (hlast : ∀ next, event = .advanced next 0 →
      ∀ timer, Accounted next (next < ·) (eventsOf timer log)) :
    Punctual (log ++ [event]) := by
  intro older next newer hlog
  rcases List.eq_nil_or_concat newer with rfl | ⟨front, last, rfl⟩
  · obtain ⟨rfl, hevent⟩ := List.append_inj' hlog rfl
    exact hlast next (List.singleton_inj.1 hevent)
  · have hsplit : log ++ [event] =
        (older ++ .advanced next 0 :: front) ++ [last] := by
      simpa using hlog
    exact h older next front (List.append_inj' hsplit rfl).1

private theorem Punctual.deleted {log : List (TimerEvent τ)}
    (h : Punctual log) (timer : τ) (res : Nat) :
    Punctual (log ++ deletedEvents timer res) := by
  unfold deletedEvents
  split
  · exact h.append (fun next hevent => nomatch hevent)
  · rwa [List.append_nil]

structure Good (s : TimerSystem τ) : Prop where
  timers : s.timers.Good s.log
  ahead : ∀ next, s.control = .loop next ∨ s.control = .function next →
    s.timers.now ≤ next
  punctual : Punctual s.log

theorem initial_good (timer : τ → TimerList) : (initial timer).Good := by
  refine ⟨⟨.nil, .refl _, .nil, ?_, ?_, rfl⟩, ?_, ?_⟩
  · intro t ht
    cases ht
  · intro t
    exact ⟨[], .nil, rfl⟩
  · rintro next (h | h) <;> cases h
  · intro older next newer h
    simp [initial] at h

variable {s s' : TimerSystem τ}

private theorem toOption_eq_some {α : Type} {x : Except String α} {a : α}
    (h : x.toOption = some a) : x = .ok a := by
  cases x with
  | error text => cases h
  | ok b => exact congrArg Except.ok (Option.some.inj h)

private theorem addHiresTimer_eq {timer : τ} {record : TimerList}
    (h : s.addHiresTimer timer record = some s') :
    timer ∉ s.timers.timers ∧
      (s.timers.setTimer timer record).addHiresTimer timer = .ok s'.timers ∧
      s'.control = s.control ∧
      s'.log = s.log ++ [.added timer record.expiry] := by
  simp only [addHiresTimer, Option.bind_eq_bind, Option.bind_eq_some_iff,
    Option.guard_eq_some', Option.pure_def, Option.some.injEq] at h
  obtain ⟨-, ⟨-, hnot⟩, timers, hadd, rfl⟩ := h
  exact ⟨hnot, toOption_eq_some hadd, rfl, rfl⟩

private theorem modTimer_eq {timer : τ} {expires : Nat}
    (h : s.modTimer timer expires = some s') :
    ∃ res, s.timers.modTimer timer expires = .ok (res, s'.timers) ∧
      s'.control = s.control ∧
      s'.log = s.log ++ deletedEvents timer res ++
        [.added timer ⟨expires, 0⟩] := by
  simp only [modTimer, Option.bind_eq_bind, Option.bind_eq_some_iff,
    Option.guard_eq_some', Option.pure_def, Option.some.injEq] at h
  obtain ⟨-, -, ⟨res, timers⟩, hmod, rfl⟩ := h
  exact ⟨res, toOption_eq_some hmod, rfl, rfl⟩

private theorem delTimer_eq {timer : τ} (h : s.delTimer timer = some s') :
    s'.timers = (s.timers.delTimer timer).2 ∧ s'.control = s.control ∧
      s'.log = s.log ++ deletedEvents timer (s.timers.delTimer timer).1 := by
  simp only [delTimer, Option.bind_eq_bind, Option.bind_eq_some_iff,
    Option.guard_eq_some', Option.pure_def, Option.some.injEq] at h
  obtain ⟨-, -, rfl⟩ := h
  exact ⟨rfl, rfl, rfl⟩

/-- Calls that leave the clock alone leave it behind the end of the loop. -/
private theorem ahead_of_eq (h : s.Good)
    (hcontrol : s'.control = s.control)
    (hnow : s'.timers.now = s.timers.now) :
    ∀ next, s'.control = .loop next ∨ s'.control = .function next →
      s'.timers.now ≤ next := by
  rw [hcontrol, hnow]
  exact h.ahead

theorem step_good (h : s.Good) {action : TimerStep τ}
    (hstep : s.step action = some s') :
    s'.Good ∧ s.timers.now ≤ s'.timers.now := by
  cases action with
  | addHiresTimer timer record =>
      obtain ⟨hnot, hadd, hcontrol, hlog⟩ := addHiresTimer_eq hstep
      have hnow := (Timers.addHiresTimer_added hadd).now
      refine ⟨⟨?_, ahead_of_eq h hcontrol hnow, ?_⟩, hnow.ge⟩
      · rw [hlog]
        exact h.timers.add hnot hadd
      · rw [hlog]
        exact h.punctual.append (fun next hevent => nomatch hevent)
  | delTimer timer =>
      obtain ⟨htimers, hcontrol, hlog⟩ := delTimer_eq hstep
      have hnow : s'.timers.now = s.timers.now := by
        rw [htimers]
        exact Timers.delTimer_now timer s.timers
      refine ⟨⟨?_, ahead_of_eq h hcontrol hnow, ?_⟩, hnow.ge⟩
      · rw [htimers, hlog]
        exact h.timers.delete.1
      · rw [hlog]
        exact h.punctual.deleted timer _
  | modTimer timer expires =>
      obtain ⟨res, hmod, hcontrol, hlog⟩ := modTimer_eq hstep
      have hnow : s'.timers.now = s.timers.now := by
        rw [(Timers.addHiresTimer_added (Timers.modTimer_ok hmod).2).now]
        exact Timers.delTimer_now timer s.timers
      refine ⟨⟨?_, ahead_of_eq h hcontrol hnow, ?_⟩, hnow.ge⟩
      · rw [hlog]
        exact h.timers.modify hmod
      · rw [hlog]
        exact (h.punctual.deleted timer res).append
          (fun next hevent => nomatch hevent)
  | advanceTime next =>
      simp only [step, advanceTime, Option.bind_eq_bind,
        Option.bind_eq_some_iff, Option.guard_eq_some'] at hstep
      obtain ⟨-, -, hstep⟩ := hstep
      split at hstep
      next =>
        obtain rfl := Option.some.inj hstep
        refine ⟨⟨h.timers.advanced next (-1), h.ahead, ?_⟩, le_rfl⟩
        exact h.punctual.append (fun later hevent => nomatch hevent)
      next hforward =>
        obtain rfl := Option.some.inj hstep
        refine ⟨⟨h.timers, ?_, h.punctual⟩, le_rfl⟩
        rintro later (hlater | hlater)
        · obtain rfl : next = later := by simpa using hlater
          simp only [Timers.turnsBack, decide_eq_true_eq, jiffvalCmp_neg]
            at hforward
          exact not_lt.1 hforward
        · cases hlater
  | loop =>
      simp only [step, loop] at hstep
      split at hstep
      next next hcontrol =>
        split at hstep
        next this hthis =>
          obtain rfl := Option.some.inj hstep
          obtain ⟨hgood, hnow, hnext⟩ := h.timers.start hthis
          refine ⟨⟨hgood, ?_, ?_⟩, hnow⟩
          · rintro later (hlater | hlater)
            · cases hlater
            · obtain rfl : next = later := by simpa using hlater
              exact hnext
          · exact h.punctual.append (fun next hevent => nomatch hevent)
        next hnone =>
          obtain rfl := Option.some.inj hstep
          have hahead := h.ahead next (.inl hcontrol)
          have hlater := h.timers.later hnone
          have hgood := h.timers.arrive hahead hlater
          refine ⟨⟨hgood.advanced next 0, ?_, ?_⟩, hahead⟩
          · rintro later (hin | hin) <;> cases hin
          · refine h.punctual.append ?_
            intro last hevent timer
            obtain rfl : next = last := by simpa using hevent
            exact hgood.accounted (fun _ => (next < ·)) hlater timer
      next => cases hstep
  | functionReturns =>
      simp only [step, functionReturns] at hstep
      split at hstep
      next next hcontrol =>
        obtain rfl := Option.some.inj hstep
        refine ⟨⟨h.timers, ?_, h.punctual⟩, le_rfl⟩
        rintro later (hlater | hlater)
        · obtain rfl : next = later := by simpa using hlater
          exact h.ahead next (.inr hcontrol)
        · cases hlater
      next => cases hstep

theorem run_append (first second : List (TimerStep τ)) :
    run (first ++ second) s = (run first s).bind (run second) := by
  induction first generalizing s with
  | nil => rfl
  | cons action rest ih =>
      simp only [List.cons_append, run, Option.bind_assoc]
      congr 1
      funext t
      exact ih

theorem run_good {steps : List (TimerStep τ)} (h : s.Good)
    (hrun : run steps s = some s') :
    s'.Good ∧ s.timers.now ≤ s'.timers.now := by
  induction steps generalizing s with
  | nil =>
      obtain rfl := Option.some.inj hrun
      exact ⟨h, le_rfl⟩
  | cons action rest ih =>
      obtain ⟨t, hstep, hrest⟩ := Option.bind_eq_some_iff.1 hrun
      obtain ⟨hgood, hnow⟩ := step_good h hstep
      obtain ⟨hlast, hlater⟩ := ih hgood hrest
      exact ⟨hlast, hnow.trans hlater⟩

private theorem loop_ends {next : JiffVal} (h : s.control = .loop next)
    (hnone : s.timers.nextDue next = none) :
    ∃ steps s', run steps s = some s' ∧ s'.control = .outside := by
  refine ⟨[.loop], ⟨s.timers.arrive next, .outside,
    s.log ++ [.advanced next 0]⟩, ?_, rfl⟩
  simp only [run, step, loop, h, hnone, Option.bind_some]

/-- The loop comes to its end when the functions make no calls. -/
theorem loop_returns {next : JiffVal} (h : s.control = .loop next) :
    ∃ steps s', run steps s = some s' ∧ s'.control = .outside := by
  generalize hlength : s.timers.timers.length = n
  induction n generalizing s with
  | zero =>
      have hnone : s.timers.nextDue next = none := by
        rw [List.length_eq_zero_iff] at hlength
        simp [Timers.nextDue, hlength]
      exact loop_ends h hnone
  | succ n ih =>
      cases hnext : s.timers.nextDue next with
      | none => exact loop_ends h hnext
      | some this =>
          have htail : (s.timers.startTimer this).timers.length = n := by
            simp [Timers.startTimer, hlength]
          obtain ⟨steps, s', hrun, hend⟩ := ih
            (s := ⟨s.timers.startTimer this, .loop next,
              s.log ++ [.ran this (s.timers.startTimer this).now]⟩)
            rfl htail
          refine ⟨.loop :: .functionReturns :: steps, s', ?_, hend⟩
          simp only [run, step, loop, h, hnext, functionReturns,
            Option.bind_some, hrun]

/-! ## What holds of every run -/

/-- Sorted by expiry, with ties in the order of insertion. -/
def Sorted (s : TimerSystem τ) : Prop :=
  s.timers.timers.Perm (pending s.log) ∧
    s.timers.timers.Pairwise (Before s.timers (pending s.log))

/-- No state of the run has a later time than the last one. -/
def ClockForward (steps : List (TimerStep τ)) (first last : TimerSystem τ) :
    Prop :=
  ∀ before after s, steps = before ++ after → run before first = some s →
    s.timers.now ≤ last.timers.now

/-- A function runs at its timer's expiry, once for each addition. -/
def Served (s : TimerSystem τ) : Prop :=
  ∀ timer, Accounted s.timers.now
    (fun expiry => timer ∈ s.timers.timers ∧
      s.timers.expiry timer = expiry)
    (eventsOf timer s.log)

end TimerSystem

theorem timers_run {steps : List (TimerStep τ)} {timer : τ → TimerList}
    {s : TimerSystem τ}
    (h : TimerSystem.run steps (TimerSystem.initial timer) = some s) :
    s.Sorted ∧ TimerSystem.ClockForward steps (TimerSystem.initial timer) s ∧
      s.Served ∧ TimerSystem.Punctual s.log := by
  obtain ⟨hgood, -⟩ :=
    TimerSystem.run_good (TimerSystem.initial_good timer) h
  refine ⟨⟨hgood.timers.same, hgood.timers.sorted⟩, ?_, ?_, hgood.punctual⟩
  · rintro before after m rfl hbefore
    rw [TimerSystem.run_append, hbefore, Option.bind_some] at h
    obtain ⟨hm, -⟩ :=
      TimerSystem.run_good (TimerSystem.initial_good timer) hbefore
    exact (TimerSystem.run_good hm h).2
  · intro t
    refine hgood.timers.accounted (fun t expiry =>
      t ∈ s.timers.timers ∧ s.timers.expiry t = expiry) ?_ t
    intro other hother
    exact ⟨hother, rfl⟩

/-- The first of two functions adds a timer for the same instant and deletes
the one that comes next. -/
private def callbackRun : List (TimerStep Nat) :=
  [.addHiresTimer 0 ⟨1, 0⟩, .addHiresTimer 1 ⟨1, 0⟩, .modTimer 2 5,
    .advanceTime ⟨2, 0⟩, .loop, .addHiresTimer 3 ⟨1, 0⟩, .delTimer 1,
    .functionReturns, .loop, .addHiresTimer 3 ⟨2, 0⟩, .functionReturns,
    .loop, .functionReturns, .loop]

theorem timers_run_callback :
    ∃ s, TimerSystem.run callbackRun (TimerSystem.initial fun _ => ⟨0, 0⟩) =
        some s ∧
      s.log.getLast? = some (.advanced ⟨2, 0⟩ 0) ∧ s.Sorted ∧
      TimerSystem.ClockForward callbackRun
        (TimerSystem.initial fun _ => ⟨0, 0⟩) s ∧
      s.Served ∧ TimerSystem.Punctual s.log :=
  ⟨_, rfl, rfl, timers_run rfl⟩

end Tcng.Tcsim
