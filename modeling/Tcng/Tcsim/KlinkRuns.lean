import Tcng.Lib.Ends
import Tcng.Tcsim.Klink
import Tcng.Tcsim.TimerRuns

/-!
Every packet that a device with a rate takes from its queue leaves the device
once, when its timer is run, as long as no such device is polled while it is
transmitting.
-/

namespace Tcng.Tcsim

variable {δ σ : Type}

/-! ## What a link shows -/

/-- The part of the state that a transmission depends on. -/
structure Link (δ : Type) where
  txing : δ → Txing
  timers : Timers (KernelTimer δ)
  log : List (LinkEvent δ)

def Klink.link (s : Klink δ σ) : Link δ :=
  ⟨fun dev => (s.device dev).txing, s.timers, s.log⟩

/-- Errors other than a call of `deliver` for an idle device. -/
def Transmitting (failure : Failure δ) : Prop :=
  ∀ dev, failure ≠ .notTransmitting dev

variable [DecidableEq δ]

def Link.setTxing (dev : δ) (txing : Txing) (l : Link δ) : Link δ :=
  { l with txing := Function.update l.txing dev txing }

namespace Klink

variable {net : Network δ σ} {s : Klink δ σ}

theorem setTxing_link (dev : δ) (txing : Txing) :
    (s.setTxing dev txing).link = s.link.setTxing dev txing := by
  simp only [link, setTxing, setDevice, Link.setTxing, Link.mk.injEq, and_true]
  funext d
  by_cases hd : d = dev
  · subst hd
    simp
  · simp [hd]

theorem setQueue_link (dev : δ) (queue : σ) :
    (s.setQueue dev queue).link = s.link := by
  simp only [link, setQueue, setDevice, Link.mk.injEq, and_true]
  funext d
  by_cases hd : d = dev
  · subst hd
    simp
  · simp [hd]

theorem netifSchedule_link (dev : δ) :
    (s.netifSchedule dev).link = s.link := by
  simp only [link, netifSchedule, setDevice, Link.mk.injEq, and_true]
  funext d
  by_cases hd : d = dev
  · subst hd
    simp
  · simp [hd]

theorem enqueue_link (dev : δ) (skb : SkBuff) :
    (enqueue net dev skb s).Ends (fun r => r.2.link = s.link)
      Transmitting := by
  unfold enqueue
  split
  · exact fun d => nofun
  · exact (setQueue_link dev _).trans (netifSchedule_link dev)

theorem kernelEnqueue_link (dev : Option δ) (buf : List (BitVec 8))
    (protocol : Nat) (attr : Attributes) :
    (kernelEnqueue net dev buf protocol attr s).Ends
      (fun r => r.2.link = s.link) Transmitting := by
  have hdev : (sendingDevice net dev).Ends (fun _ => True) Transmitting := by
    unfold sendingDevice
    split
    · trivial
    · split
      · exact fun d => nofun
      · trivial
      · exact fun d => nofun
  refine hdev.bind ?_
  intro d _
  split
  · exact fun d => nofun
  · exact enqueue_link d _

theorem forward_link (dev : δ) (skb : SkBuff) :
    (forward net dev skb s).Ends (fun s' => s'.link = s.link)
      Transmitting := by
  unfold forward
  split
  · rfl
  · split
    · rfl
    · exact (enqueue_link _ skb).map

theorem incoming_link (dev : δ) (skb : SkBuff) :
    (incoming net dev skb s).Ends (fun s' => s'.link = s.link)
      Transmitting := by
  unfold incoming
  split
  · exact forward_link dev _
  · simp only
    split
    · exact setQueue_link dev _
    · refine (forward_link dev _).mono ?_
      intro s' hs'
      exact hs'.trans (setQueue_link dev _)

end Klink

/-! ## Deliveries and transmissions -/

namespace Link

/-- A packet leaves the device. -/
def delivered (dev : δ) (l : Link δ) : Link δ :=
  match l.txing dev with
  | .packet skb => { l.setTxing dev .null with
      log := l.log ++ [.delivered dev skb l.timers.now] }
  | _ => l.setTxing dev .null

/-- The wire of an idle device gets a packet, and there is a timer for it. -/
inductive Sends (net : Network δ σ) (dev : δ) (l : Link δ) : Link δ → Prop
  | stopped {skb : SkBuff} (hidle : l.txing dev = .null)
      (hrate : net.kbps dev ≤ 0) :
      Sends net dev l (l.setTxing dev (.packet skb))
  | timed {skb : SkBuff} {address : Nat} {next : JiffVal}
      {timers : Timers (KernelTimer δ)} (hidle : l.txing dev = .null)
      (hrate : 0 < net.kbps dev)
      (hadded : Timers.Added (.devPoll address dev)
        ⟨next.jiffies, next.ujiffies⟩ l.timers timers) :
      Sends net dev l { l.setTxing dev (.packet skb) with
        timers := timers, log := l.log ++ [.dequeued dev skb next] }

end Link

namespace Klink

variable {net : Network δ σ} {s : Klink δ σ}

theorem handOver_link {dev : δ} {skb : SkBuff} :
    (handOver net dev skb s).Ends
      (fun s' => s'.link = { s.link with
        log := s.log ++ [.delivered dev skb s.timers.now] })
      Transmitting := by
  unfold handOver
  simp only
  split
  · rfl
  · exact incoming_link _ skb

theorem deliver_link {dev : δ} (h : s.link.txing dev ≠ .null) :
    (deliver net dev s).Ends (fun s' => s'.link = s.link.delivered dev)
      Transmitting := by
  unfold deliver Link.delivered
  cases htx : (s.device dev).txing with
  | null => exact absurd htx h
  | busyHack =>
      have hlink : s.link.txing dev = .busyHack := htx
      simp only [hlink]
      exact setTxing_link dev .null
  | packet skb =>
      have hlink : s.link.txing dev = .packet skb := htx
      simp only [hlink]
      refine Except.Ends.map (handOver_link.mono ?_)
      intro s' hs'
      rw [setTxing_link, hs']
      rfl

theorem transmit_link {dev : δ} (skb : SkBuff)
    (h : s.link.txing dev = .null) :
    (transmit net dev skb s).Ends (fun s' => s.link.Sends net dev s'.link)
      Transmitting := by
  simp only [transmit]
  split
  next hrate =>
    split
    · exact fun d => nofun
    next timers hadd =>
      have hadded := Timers.addHiresTimer_added hadd
      have hlink := setTxing_link (s := s) dev (.packet skb)
      simp only [link, Link.setTxing, Link.mk.injEq] at hlink
      simp only [Except.ends_ok, link, hlink.1]
      exact .timed h hrate hadded
  next hrate =>
    show s.link.Sends net dev (s.setTxing dev (.packet skb)).link
    rw [setTxing_link]
    exact .stopped h (not_lt.1 hrate)

theorem takePacket_link (dev : δ) :
    (takePacket net dev s).Ends
      (fun s' => s'.link = s.link ∨ s.link.Sends net dev s'.link)
      Transmitting := by
  simp only [takePacket]
  split
  · exact .inl rfl
  next hfree =>
    have hidle : s.link.txing dev = .null := by
      have hnot := not_or.1 hfree
      exact not_not.1 hnot.1
    split
    · exact .inl rfl
    next dequeue hdequeue =>
      split
      · exact .inl (setQueue_link dev _)
      next skb hskb =>
        have hlink := setQueue_link (s := s) dev
          (dequeue s.timers.now (s.device dev).queue).2
        refine (transmit_link skb (hlink ▸ hidle)).mono ?_
        intro s' hs'
        rw [hlink] at hs'
        exact .inr hs'

end Klink

/-! ## The invariant -/

def LinkEvent.isOf (dev : δ) : LinkEvent δ → Bool
  | .dequeued d _ _ => d = dev
  | .fired d _ => d = dev
  | .delivered d _ _ => d = dev
  | .advanced _ => false

def linkEventsOf (dev : δ) (log : List (LinkEvent δ)) : List (LinkEvent δ) :=
  log.filter (LinkEvent.isOf dev)

theorem linkEventsOf_append (dev : δ) (log : List (LinkEvent δ))
    (event : LinkEvent δ) :
    linkEventsOf dev (log ++ [event]) =
      linkEventsOf dev log ++ if event.isOf dev then [event] else [] := by
  unfold linkEventsOf
  rw [List.filter_append]
  cases h : event.isOf dev <;> simp [h]

omit [DecidableEq δ] in
/-- In the events of one device, each packet that is dequeued is delivered
once, at the time of its timer, and after the timer's function was started;
only the last one may be still on the wire. -/
inductive Transmitted (isOpen : SkBuff → JiffVal → Prop) :
    List (LinkEvent δ) → Prop
  | nil : Transmitted isOpen []
  | sending {dev skb expiry} (h : isOpen skb expiry) :
      Transmitted isOpen [.dequeued dev skb expiry]
  | delivered {dev skb expiry rest} (h : Transmitted isOpen rest) :
      Transmitted isOpen (.dequeued dev skb expiry :: .fired dev expiry ::
        .delivered dev skb expiry :: rest)

abbrev Complete : List (LinkEvent δ) → Prop :=
  Transmitted fun _ _ => False

omit [DecidableEq δ] in
theorem Complete.append {isOpen : SkBuff → JiffVal → Prop}
    {done tail : List (LinkEvent δ)} (hdone : Complete done)
    (htail : Transmitted isOpen tail) : Transmitted isOpen (done ++ tail) := by
  induction hdone with
  | nil => exact htail
  | sending h => exact h.elim
  | delivered h ih => exact ih.delivered

def KernelTimer.isPollOf (dev : δ) : KernelTimer δ → Bool
  | .devPoll _ d => d = dev
  | .other _ => false

namespace Link

/-- The pending timers of a device. -/
def polls (dev : δ) (l : Link δ) : List (KernelTimer δ) :=
  l.timers.timers.filter (KernelTimer.isPollOf dev)

def Idle (dev : δ) (l : Link δ) : Prop :=
  l.txing dev = .null ∧ l.polls dev = []

def Sending (dev : δ) (skb : SkBuff) (expiry : JiffVal) (l : Link δ) : Prop :=
  l.txing dev = .packet skb ∧ ∃ address,
    l.polls dev = [.devPoll address dev] ∧
      l.timers.expiry (.devPoll address dev) = expiry

/-- The events of a device, and what is on its wire. -/
def Current (dev : δ) (l : Link δ) : Prop :=
  ∃ done, Complete done ∧
    (l.Idle dev ∧ linkEventsOf dev l.log = done ∨
      ∃ skb expiry, l.Sending dev skb expiry ∧
        linkEventsOf dev l.log = done ++ [.dequeued dev skb expiry])

/-- After each success of `advance_time`, what is still on a wire has to wait
for a later time. -/
def Punctual (net : Network δ σ) (log : List (LinkEvent δ)) : Prop :=
  ∀ older next newer, log = older ++ .advanced next :: newer →
    ∀ dev, 0 < net.kbps dev →
      Transmitted (fun _ expiry => next < expiry) (linkEventsOf dev older)

structure Good (net : Network δ σ) (l : Link δ) : Prop where
  sorted : l.timers.timers.Pairwise fun a b =>
    l.timers.expiry a ≤ l.timers.expiry b
  stopped : ∀ dev, net.kbps dev ≤ 0 → l.polls dev = []
  current : ∀ dev, 0 < net.kbps dev → l.Current dev
  punctual : Punctual net l.log

variable {net : Network δ σ} {l l' : Link δ}

private theorem Punctual.append {log : List (LinkEvent δ)}
    (h : Punctual net log) {event : LinkEvent δ}
    (hlast : ∀ next, event = .advanced next → ∀ dev, 0 < net.kbps dev →
      Transmitted (fun _ expiry => next < expiry) (linkEventsOf dev log)) :
    Punctual net (log ++ [event]) := by
  intro older next newer hlog
  rcases List.eq_nil_or_concat newer with rfl | ⟨front, last, rfl⟩
  · obtain ⟨rfl, hevent⟩ := List.append_inj' hlog rfl
    exact hlast next (List.singleton_inj.1 hevent)
  · have hsplit : log ++ [event] =
        (older ++ .advanced next :: front) ++ [last] := by
      simpa using hlog
    exact h older next front (List.append_inj' hsplit rfl).1

/-- A device is as before where its wire, its timers and its events are. -/
theorem Current.congr {dev : δ} (h : l.Current dev)
    (htxing : l'.txing dev = l.txing dev) (hpolls : l'.polls dev = l.polls dev)
    (hexpiry : ∀ t ∈ l.polls dev, l'.timers.expiry t = l.timers.expiry t)
    (hevents : linkEventsOf dev l'.log = linkEventsOf dev l.log) :
    l'.Current dev := by
  obtain ⟨done, hdone, hcase⟩ := h
  refine ⟨done, hdone, ?_⟩
  rw [hevents]
  rcases hcase with ⟨⟨hnull, hnone⟩, hlog⟩ | ⟨skb, expiry, hsending, hlog⟩
  · exact .inl ⟨⟨htxing.trans hnull, hpolls.trans hnone⟩, hlog⟩
  · obtain ⟨hskb, address, hone, htime⟩ := hsending
    refine .inr ⟨skb, expiry, ⟨htxing.trans hskb, address,
      hpolls.trans hone, ?_⟩, hlog⟩
    rw [hexpiry _ (hone ▸ List.mem_singleton_self _), htime]

omit [DecidableEq δ] in
/-- A timer joins the list, and the list stays sorted. -/
private theorem sorted_added {t : KernelTimer δ} {record : TimerList}
    {timers timers' : Timers (KernelTimer δ)}
    (hadded : Timers.Added t record timers timers')
    (hnot : t ∉ timers.timers)
    (hsorted : timers.timers.Pairwise fun a b =>
      timers.expiry a ≤ timers.expiry b) :
    timers'.timers.Pairwise fun a b =>
      timers'.expiry a ≤ timers'.expiry b := by
  rw [hadded.timers]
  refine Timers.insertTimer_pairwise ?_ ?_ ?_ ?_
  · refine hsorted.imp_of_mem ?_
    intro a b ha hb hle
    rwa [hadded.kept hnot ha, hadded.kept hnot hb]
  · intro a _ b _ hle
    exact hle
  · intro a _ hle
    exact hle
  · intro b _ hlt
    exact hlt.le

/-- A timer that is not one of the device's own. -/
private theorem polls_added {t : KernelTimer δ} {record : TimerList}
    (hadded : Timers.Added t record l.timers l'.timers) {dev : δ}
    (hother : t.isPollOf dev = false)
    (hfew : l.polls dev = [] ∨ ∃ own, l.polls dev = [own]) :
    l'.polls dev = l.polls dev := by
  have hperm : (l'.polls dev).Perm (l.polls dev) := by
    have hfilter := hadded.perm.filter (KernelTimer.isPollOf dev)
    rwa [List.filter_cons_of_neg (by simp [hother])] at hfilter
  rcases hfew with hnone | ⟨own, hone⟩
  · rw [hnone] at hperm ⊢
    exact List.perm_nil.1 hperm
  · rw [hone] at hperm ⊢
    exact List.perm_singleton.1 hperm

theorem Good.few (h : l.Good net) (dev : δ) :
    l.polls dev = [] ∨ ∃ own, l.polls dev = [own] := by
  by_cases hrate : net.kbps dev ≤ 0
  · exact .inl (h.stopped dev hrate)
  · obtain ⟨done, -, ⟨hidle, -⟩ | ⟨skb, expiry, hsending, -⟩⟩ :=
      h.current dev (not_le.1 hrate)
    · exact .inl hidle.2
    · obtain ⟨-, address, hone, -⟩ := hsending
      exact .inr ⟨_, hone⟩

/-- A device with a rate that is not transmitting has no timer. -/
theorem Good.idle (h : l.Good net) {dev : δ} (hrate : 0 < net.kbps dev)
    (hnull : l.txing dev = .null) :
    l.polls dev = [] ∧ Complete (linkEventsOf dev l.log) := by
  obtain ⟨done, hdone, ⟨hidle, hlog⟩ | ⟨skb, expiry, hsending, -⟩⟩ :=
    h.current dev hrate
  · exact ⟨hidle.2, hlog ▸ hdone⟩
  · rw [hsending.1] at hnull
    cases hnull

@[simp] theorem setTxing_self (dev : δ) (txing : Txing) :
    (l.setTxing dev txing).txing dev = txing := by
  simp [setTxing]

theorem setTxing_other {dev d : δ} (txing : Txing) (hd : d ≠ dev) :
    (l.setTxing dev txing).txing d = l.txing d := by
  simp [setTxing, hd]

/-- The wire of a device without a rate changes, with at most one event. -/
private theorem Good.of_stopped {dev : δ} (h : l.Good net)
    (hrate : net.kbps dev ≤ 0) (htimers : l'.timers = l.timers)
    (htxing : ∀ d, d ≠ dev → l'.txing d = l.txing d)
    (hlog : l'.log = l.log ∨ ∃ skb now,
      l'.log = l.log ++ [.delivered dev skb now]) :
    l'.Good net := by
  have hpolls : ∀ d, l'.polls d = l.polls d := by
    intro d
    simp only [polls, htimers]
  have hevents : ∀ d, d ≠ dev →
      linkEventsOf d l'.log = linkEventsOf d l.log := by
    intro d hd
    rcases hlog with hsame | ⟨skb, now, hone⟩
    · rw [hsame]
    · rw [hone, linkEventsOf_append]
      simp [LinkEvent.isOf, hd.symm]
  refine ⟨by rw [htimers]; exact h.sorted, ?_, ?_, ?_⟩
  · intro d hd
    rw [hpolls]
    exact h.stopped d hd
  · intro d hd
    have hne : d ≠ dev := by
      rintro rfl
      exact absurd hrate (not_le.2 hd)
    refine (h.current d hd).congr (htxing d hne) (hpolls d) ?_ (hevents d hne)
    intro t _
    rw [htimers]
  · rcases hlog with hsame | ⟨skb, now, hone⟩
    · rw [hsame]
      exact h.punctual
    · rw [hone]
      exact h.punctual.append (fun next hevent => nomatch hevent)

/-- A packet leaves a device without a rate. -/
theorem Good.delivered {dev : δ} (h : l.Good net)
    (hrate : net.kbps dev ≤ 0) :
    (l.delivered dev).Good net ∧
      ∀ d, d ≠ dev → (l.delivered dev).txing d = l.txing d := by
  unfold Link.delivered
  split
  next skb hskb =>
    have htxing : ∀ d, d ≠ dev → (l.setTxing dev .null).txing d = l.txing d :=
      fun d hd => setTxing_other .null hd
    exact ⟨h.of_stopped hrate rfl htxing (.inr ⟨skb, _, rfl⟩), htxing⟩
  next =>
    have htxing : ∀ d, d ≠ dev → (l.setTxing dev .null).txing d = l.txing d :=
      fun d hd => setTxing_other .null hd
    exact ⟨h.of_stopped hrate rfl htxing (.inl rfl), htxing⟩

theorem Good.sends {dev : δ} (h : l.Good net) (hsends : l.Sends net dev l') :
    l'.Good net ∧ ∀ d, d ≠ dev → l'.txing d = l.txing d := by
  cases hsends with
  | @stopped skb hidle hrate =>
      have htxing : ∀ d, d ≠ dev →
          (l.setTxing dev (.packet skb)).txing d = l.txing d :=
        fun d hd => setTxing_other _ hd
      exact ⟨h.of_stopped hrate rfl htxing (.inl rfl), htxing⟩
  | @timed skb address next timers hidle hrate hadded =>
      obtain ⟨hnone, hdone⟩ := h.idle hrate hidle
      have hnot : KernelTimer.devPoll address dev ∉ l.timers.timers := by
        intro hin
        have hpoll : KernelTimer.devPoll address dev ∈ l.polls dev :=
          List.mem_filter.2 ⟨hin, by simp [KernelTimer.isPollOf]⟩
        rw [hnone] at hpoll
        cases hpoll
      have htxing : ∀ d, d ≠ dev →
          (l.setTxing dev (.packet skb)).txing d = l.txing d :=
        fun d hd => setTxing_other _ hd
      refine ⟨⟨sorted_added hadded hnot h.sorted, ?_, ?_, ?_⟩, htxing⟩
      · intro d hd
        have hne : d ≠ dev := by
          rintro rfl
          exact absurd hd (not_le.2 hrate)
        rw [polls_added hadded (by simp [KernelTimer.isPollOf, hne.symm])
          (h.few d)]
        exact h.stopped d hd
      · intro d hd
        by_cases hdev : d = dev
        · subst hdev
          refine ⟨linkEventsOf d l.log, hdone, .inr ⟨skb, next,
            ⟨setTxing_self d _, address, ?_, hadded.self⟩, ?_⟩⟩
          · have hperm := hadded.perm.filter (KernelTimer.isPollOf d)
            rw [List.filter_cons_of_pos (by simp [KernelTimer.isPollOf])]
              at hperm
            have hnil : l.timers.timers.filter (KernelTimer.isPollOf d) = [] :=
              hnone
            rw [hnil] at hperm
            exact List.perm_singleton.1 hperm
          · rw [linkEventsOf_append]
            simp [LinkEvent.isOf]
        · refine (h.current d hd).congr (htxing d hdev)
            (polls_added hadded ?_ (h.few d)) ?_ ?_
          · simp [KernelTimer.isPollOf, Ne.symm hdev]
          · intro t ht
            exact hadded.kept hnot (List.mem_filter.1 ht).1
          · rw [linkEventsOf_append]
            simp [LinkEvent.isOf, Ne.symm hdev]
      · exact h.punctual.append (fun next hevent => nomatch hevent)

/-- The timer of another part of the program is added. -/
theorem Good.addTimer {address : Nat} {record : TimerList} (h : l.Good net)
    {timers : Timers (KernelTimer δ)}
    (hnot : .other address ∉ l.timers.timers)
    (hadded : Timers.Added (.other address) record l.timers timers) :
    Good net { l with timers := timers } := by
  have hpolls : ∀ d, polls d { l with timers := timers } = l.polls d :=
    fun d => polls_added hadded rfl (h.few d)
  refine ⟨sorted_added hadded hnot h.sorted, ?_, ?_, h.punctual⟩
  · intro d hd
    rw [hpolls]
    exact h.stopped d hd
  · intro d hd
    refine (h.current d hd).congr rfl (hpolls d) ?_ rfl
    intro t ht
    exact hadded.kept hnot (List.mem_filter.1 ht).1

/-- The first timer is taken off the list: one of another part of the program,
or that of a packet on the wire. -/
theorem Good.startOther {address : Nat} (h : l.Good net)
    {rest : List (KernelTimer δ)}
    (hfirst : l.timers.timers = .other address :: rest) :
    Good net { l with timers := l.timers.startTimer (.other address) } := by
  have hpolls : ∀ d, polls d
      { l with timers := l.timers.startTimer (.other address) } =
        l.polls d := by
    intro d
    simp [polls, Timers.startTimer, hfirst, KernelTimer.isPollOf]
  have hsorted := h.sorted
  rw [hfirst] at hsorted
  refine ⟨?_, ?_, ?_, h.punctual⟩
  · simp only [Timers.startTimer, hfirst, List.tail_cons]
    exact (List.pairwise_cons.1 hsorted).2
  · intro d hd
    rw [hpolls]
    exact h.stopped d hd
  · intro d hd
    exact (h.current d hd).congr rfl (hpolls d) (fun t _ => rfl) rfl

/-- The state in `dev_do_poll`, before `deliver`. -/
def fired (this : KernelTimer δ) (dev : δ) (l : Link δ) : Link δ :=
  { l with
    timers := l.timers.startTimer this
    log := l.log ++ [.fired dev (l.timers.startTimer this).now] }

theorem Good.startPoll {address : Nat} {dev : δ} (h : l.Good net)
    {rest : List (KernelTimer δ)}
    (hfirst : l.timers.timers = .devPoll address dev :: rest) :
    (l.fired (.devPoll address dev) dev).txing dev ≠ .null ∧
      Good net ((l.fired (.devPoll address dev) dev).delivered dev) := by
  have hpolls : l.polls dev =
      .devPoll address dev :: rest.filter (KernelTimer.isPollOf dev) := by
    simp [polls, hfirst, KernelTimer.isPollOf]
  have hrate : 0 < net.kbps dev := by
    by_contra hrate
    rw [h.stopped dev (not_lt.1 hrate)] at hpolls
    cases hpolls
  obtain ⟨done, hdone, ⟨hidle, -⟩ | ⟨skb, expiry, hsending, hlog⟩⟩ :=
    h.current dev hrate
  · rw [hidle.2] at hpolls
    cases hpolls
  obtain ⟨hskb, address', hone, htime⟩ := hsending
  rw [hone] at hpolls
  obtain ⟨hhead, hrest⟩ := List.cons.inj hpolls
  rw [hhead] at htime
  have hwire : (l.fired (.devPoll address dev) dev).txing dev =
      .packet skb := hskb
  have hothers : ∀ d, d ≠ dev →
      rest.filter (KernelTimer.isPollOf d) = l.polls d := by
    intro d hd
    simp [polls, hfirst, KernelTimer.isPollOf, hd.symm]
  have hsorted := h.sorted
  rw [hfirst] at hsorted
  refine ⟨by rw [hwire]; rintro ⟨⟩, ?_⟩
  simp only [Link.delivered, hwire]
  refine ⟨?_, ?_, ?_, ?_⟩
  · simp only [fired, setTxing, Timers.startTimer, hfirst, List.tail_cons]
    exact (List.pairwise_cons.1 hsorted).2
  · intro d hd
    have hne : d ≠ dev := by
      rintro rfl
      exact absurd hd (not_le.2 hrate)
    simp only [polls, fired, setTxing, Timers.startTimer, hfirst,
      List.tail_cons]
    rw [hothers d hne]
    exact h.stopped d hd
  · intro d hd
    by_cases hdev : d = dev
    · subst hdev
      refine ⟨done ++ [.dequeued d skb expiry, .fired d expiry,
        .delivered d skb expiry], hdone.append (.delivered .nil),
        .inl ⟨⟨setTxing_self d _, ?_⟩, ?_⟩⟩
      · simp only [polls, fired, setTxing, Timers.startTimer, hfirst,
          List.tail_cons]
        exact hrest.symm
      · have hnow : (l.timers.startTimer (.devPoll address d)).now =
            expiry := htime
        have hlog' : linkEventsOf d (l.log ++ [.fired d expiry] ++
            [.delivered d skb expiry]) = done ++ [.dequeued d skb expiry] ++
              [.fired d expiry] ++ [.delivered d skb expiry] := by
          rw [linkEventsOf_append, linkEventsOf_append, hlog]
          simp [LinkEvent.isOf]
        simpa [fired, hnow] using hlog'
    · refine (h.current d hd).congr (setTxing_other _ hdev) ?_
        (fun t _ => rfl) ?_
      · simp only [polls, fired, setTxing, Timers.startTimer, hfirst,
          List.tail_cons]
        rw [hothers d hdev, polls, hfirst]
      · have hlog' : ∀ a b : LinkEvent δ, a.isOf d = false →
            b.isOf d = false →
            linkEventsOf d (l.log ++ [a] ++ [b]) = linkEventsOf d l.log := by
          intro a b ha hb
          rw [linkEventsOf_append, linkEventsOf_append]
          simp [ha, hb]
        exact hlog' _ _ (by simp [LinkEvent.isOf, Ne.symm hdev])
          (by simp [LinkEvent.isOf, Ne.symm hdev])
  · refine (h.punctual.append ?_).append ?_
    · rintro next ⟨⟩
    · rintro next ⟨⟩

/-- The end of `advance_time`. -/
theorem Good.arrive {next : JiffVal} (h : l.Good net)
    (hnext : l.timers.nextDue next = none) :
    Good net { l with
      timers := l.timers.arrive next, log := l.log ++ [.advanced next] } := by
  have hlater := Timers.later_of_nextDue h.sorted hnext
  refine ⟨h.sorted, h.stopped, ?_, h.punctual.append ?_⟩
  · intro d hd
    refine (h.current d hd).congr rfl rfl (fun t _ => rfl) ?_
    rw [linkEventsOf_append]
    simp [LinkEvent.isOf]
  · intro later hevent d hd
    obtain rfl : next = later := by simpa using hevent
    obtain ⟨done, hdone, ⟨-, hlog⟩ | ⟨skb, expiry, hsending, hlog⟩⟩ :=
      h.current d hd
    · rw [hlog, ← List.append_nil done]
      exact hdone.append .nil
    · rw [hlog]
      obtain ⟨-, address, hone, htime⟩ := hsending
      have hin : KernelTimer.devPoll address d ∈ l.polls d :=
        hone ▸ List.mem_singleton_self _
      refine hdone.append (.sending ?_)
      rw [← htime]
      exact hlater _ (List.mem_filter.1 hin).1

end Link

/-! ## Steps and runs -/

namespace Klink

variable {net : Network δ σ} {s : Klink δ σ}

private theorem takePacket_good (dev : δ) (h : s.link.Good net) :
    (takePacket net dev s).Ends
      (fun s' => s'.link.Good net ∧
        ∀ d, d ≠ dev → s'.link.txing d = s.link.txing d)
      Transmitting := by
  refine (takePacket_link dev).mono ?_
  rintro s' (hsame | hsends)
  · rw [hsame]
    exact ⟨h, fun d _ => rfl⟩
  · exact h.sends hsends

theorem kernelPollDevice_good {dev : δ} {unbusy : Bool}
    (h : s.link.Good net)
    (hpoll : unbusy = true → 0 < net.kbps dev → s.link.txing dev = .null) :
    (kernelPollDevice net dev unbusy s).Ends
      (fun s' => s'.link.Good net ∧
        ∀ d, d ≠ dev → s'.link.txing d = s.link.txing d)
      Transmitting := by
  unfold kernelPollDevice
  split
  next hbusy =>
    obtain ⟨hunbusy, hwire⟩ := hbusy
    have hrate : net.kbps dev ≤ 0 := by
      by_contra hrate
      exact hwire (hpoll hunbusy (not_le.1 hrate))
    refine (deliver_link hwire).bind ?_
    intro s₁ hs₁
    obtain ⟨hgood, hothers⟩ := h.delivered hrate
    rw [← hs₁] at hgood hothers
    refine (takePacket_good dev hgood).mono ?_
    rintro s₂ ⟨hlast, hkept⟩
    exact ⟨hlast, fun d hd => (hkept d hd).trans (hothers d hd)⟩
  next => exact takePacket_good dev h

theorem pollAll_good {unbusy : Bool} {devs : List δ} (hnodup : devs.Nodup)
    (h : s.link.Good net)
    (hpoll : unbusy = true → ∀ dev ∈ devs, 0 < net.kbps dev →
      s.link.txing dev = .null) :
    (pollAll net unbusy devs s).Ends (fun s' => s'.link.Good net)
      Transmitting := by
  induction devs generalizing s with
  | nil => exact h
  | cons dev rest ih =>
      obtain ⟨hdev, hrest⟩ := List.nodup_cons.1 hnodup
      refine (kernelPollDevice_good h
        (fun hunbusy => hpoll hunbusy dev List.mem_cons_self)).bind ?_
      rintro s₁ ⟨hgood, hkept⟩
      refine ih hrest hgood ?_
      intro hunbusy d hd hrate
      rw [hkept d (ne_of_mem_of_not_mem hd hdev)]
      exact hpoll hunbusy d (List.mem_cons_of_mem dev hd) hrate

/-- The devices that a poll is about. -/
def polled (net : Network δ σ) (dev : Option δ) : List δ :=
  match dev with
  | some dev => [dev]
  | none => net.devBase

theorem kernelPoll_good {dev : Option δ} {unbusy : Bool}
    (h : s.link.Good net)
    (hpoll : unbusy = true → ∀ d ∈ polled net dev, 0 < net.kbps d →
      s.link.txing d = .null) :
    (kernelPoll net dev unbusy s).Ends (fun s' => s'.link.Good net)
      Transmitting := by
  cases dev with
  | none => exact pollAll_good net.nodup h hpoll
  | some dev =>
      refine (kernelPollDevice_good h (fun hunbusy =>
        hpoll hunbusy dev (List.mem_singleton_self dev))).mono ?_
      intro s' hs'
      exact hs'.1

/-- A poll that ends no transmission. -/
theorem kernelPoll_busy {dev : Option δ} (h : s.link.Good net) :
    (kernelPoll net dev false s).Ends (fun s' => s'.link.Good net)
      Transmitting :=
  kernelPoll_good h nofun

theorem loop_good {next : JiffVal} (h : s.link.Good net) :
    (s.loop net next).Ends (fun s' => s'.link.Good net) Transmitting := by
  unfold loop
  split
  next hnone => exact h.arrive hnone
  next this hthis =>
    obtain ⟨rest, hfirst, -⟩ := Timers.nextDue_eq_some hthis
    cases this with
    | other address => exact h.startOther hfirst
    | devPoll address dev =>
        obtain ⟨hwire, hgood⟩ := h.startPoll hfirst
        refine Except.Ends.bind (Q := fun s' => s'.link.Good net) ?_
          (fun s' hs' => kernelPoll_busy hs')
        refine Except.Ends.bind (deliver_link hwire) ?_
        intro s₁ hs₁
        exact kernelPoll_busy (hs₁ ▸ hgood)

/-- An explicit poll is not about a device with a rate that is transmitting. -/
def Allowed (net : Network δ σ) (s : Klink δ σ) : LinkStep δ → Prop
  | .poll dev => ∀ d ∈ polled net dev, 0 < net.kbps d →
      (s.device d).txing = .null
  | _ => True

theorem step_good {action : LinkStep δ} (h : s.link.Good net)
    (hallowed : s.Allowed net action) :
    (s.step net action).Ends (fun s' => s'.link.Good net) Transmitting := by
  unfold step
  split
  case h_1 => exact loop_good h
  case h_2 => exact h
  case h_3 => exact kernelPoll_busy h
  case h_4 => exact h
  case h_5 => split <;> exact h
  case h_6 => exact h
  case h_7 => exact h
  case h_8 dev buf protocol attr _ =>
    refine (kernelEnqueue_link dev buf protocol attr).bind ?_
    intro r hr
    exact kernelPoll_busy (hr ▸ h)
  case h_9 => exact kernelPoll_good h (fun _ => hallowed)
  case h_10 address record _ =>
    split
    next => exact h
    next hnot =>
      unfold addTimer
      split
      · exact fun d => nofun
      next timers hadd =>
        exact h.addTimer hnot (Timers.addHiresTimer_added hadd)

/-- Every step is allowed in the state in which it is taken. -/
def AllAllowed (net : Network δ σ) : List (LinkStep δ) → Klink δ σ → Prop
  | [], _ => True
  | first :: rest, s => s.Allowed net first ∧
      ∀ s', s.step net first = .ok s' → AllAllowed net rest s'

theorem run_good {steps : List (LinkStep δ)} (h : s.link.Good net)
    (hallowed : AllAllowed net steps s) :
    (run net steps s).Ends (fun s' => s'.link.Good net) Transmitting := by
  induction steps generalizing s with
  | nil => exact h
  | cons first rest ih =>
      obtain ⟨hfirst, hrest⟩ := hallowed
      have hstep := step_good h hfirst
      show ((s.step net first).bind fun s' => run net rest s').Ends _ _
      cases hs : s.step net first with
      | error failure => exact hstep.of_error hs
      | ok s' => exact ih (hstep.of_ok hs) (hrest s' hs)

theorem initial_good (queue : δ → σ) (timer : KernelTimer δ → TimerList) :
    (initial net queue timer).link.Good net := by
  refine ⟨.nil, fun dev _ => rfl, ?_, ?_⟩
  · intro dev hrate
    refine ⟨[], .nil, .inl ⟨⟨?_, rfl⟩, rfl⟩⟩
    simp [link, initial, not_le.2 hrate]
  · intro older next newer h
    simp [initial, link] at h

/-- What is dequeued by a device with a rate is delivered once, after its timer
has fired, unless it is still on the wire and the one timer of the device is
pending; what was due when `advance_time` succeeded has been delivered. -/
def Served (net : Network δ σ) (s : Klink δ σ) : Prop :=
  (∀ dev, 0 < net.kbps dev →
    Transmitted (fun skb expiry => s.link.Sending dev skb expiry)
      (linkEventsOf dev s.log)) ∧
    Link.Punctual net s.log

/-- The run serves every packet, and calls `deliver` for no idle device. -/
def RunsWell (net : Network δ σ) (steps : List (LinkStep δ))
    (s : Klink δ σ) : Prop :=
  (run net steps s).Ends (Served net) Transmitting

end Klink

theorem klink_run {net : Network δ σ} {queue : δ → σ}
    {timer : KernelTimer δ → TimerList} {steps : List (LinkStep δ)}
    (h : Klink.AllAllowed net steps (Klink.initial net queue timer)) :
    Klink.RunsWell net steps (Klink.initial net queue timer) := by
  refine (Klink.run_good (Klink.initial_good queue timer) h).mono ?_
  intro s hs
  refine ⟨?_, hs.punctual⟩
  intro dev hrate
  obtain ⟨done, hdone, ⟨-, hlog⟩ | ⟨skb, expiry, hsending, hlog⟩⟩ :=
    hs.current dev hrate
  · have hevents : linkEventsOf dev s.log = done ++ [] :=
      hlog.trans (List.append_nil done).symm
    exact hevents ▸ hdone.append .nil
  · have hevents : linkEventsOf dev s.log =
        done ++ [.dequeued dev skb expiry] := hlog
    exact hevents ▸ hdone.append (.sending hsending)

/-! One device with a rate of 1000 kbps and a queue in order of arrival. -/

private def fifo : Qdisc (List SkBuff) where
  enqueue := some fun _ skb queue => (0, queue ++ [skb])
  dequeue := some fun _ queue => (queue.head?, queue.tail)

private def oneDevice : Network Unit (List SkBuff) where
  devBase := [()]
  nodup := List.nodup_singleton ()
  name _ := "eth0"
  kbps _ := 1000
  peer _ := none
  routes _ := []
  qdisc _ := some fifo
  qdiscIngress _ := none
  preserve := false
  defaultAttributes := ⟨0, 0, 0⟩
  transmitted now len kbps :=
    ⟨now.jiffies, now.ujiffies + len * 800000 / kbps.toNat⟩

private def twentyBytes : LinkStep Unit :=
  .send none (List.replicate 20 0) 0x800 ⟨0, 0, 0⟩

private def idleStart : Klink Unit (List SkBuff) :=
  .initial oneDevice (fun _ => []) (fun _ => ⟨0, 0⟩)

/-- A poll in front of the packet, not behind it. -/
theorem klink_run_idlePoll :
    Klink.RunsWell oneDevice
      [.poll none, twentyBytes, .advanceTime ⟨1, 0⟩, .loop, .loop] idleStart :=
  klink_run ⟨fun _ _ _ => rfl, fun _ _ => ⟨trivial, fun _ _ =>
    ⟨trivial, fun _ _ => ⟨trivial, fun _ _ => ⟨trivial, fun _ _ =>
      trivial⟩⟩⟩⟩⟩

/-- The poll delivers the packet before its timer fires, and leaves the timer
in the list. -/
theorem klink_run_busyPoll :
    ¬∀ (net : Network Unit (List SkBuff)) (steps : List (LinkStep Unit))
      (queue : Unit → List SkBuff) (timer : KernelTimer Unit → TimerList),
      Klink.RunsWell net steps (Klink.initial net queue timer) := by
  intro h
  have hrun : Klink.run oneDevice
      [twentyBytes, .poll none, .advanceTime ⟨1, 0⟩, .loop] idleStart =
        .error (.notTransmitting ()) := by
    rfl
  exact (h oneDevice [twentyBytes, .poll none, .advanceTime ⟨1, 0⟩, .loop]
    (fun _ => []) (fun _ => ⟨0, 0⟩)).of_error hrun () rfl

end Tcng.Tcsim
