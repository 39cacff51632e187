import Mathlib.Data.Prod.Lex
import Mathlib.Order.Lattice
import Mathlib.Data.List.Sublists

/-!
`tcsim/timer.c`: the list of pending timers and `advance_time`. A timer is a
pointer to its `struct timer_list`; the functions that `advance_time` runs may
make any of the other calls, so they are steps between the steps of its loop.
-/

namespace Tcng.Tcsim

/-! `jiffies.h`, `jiffies.c` -/

structure JiffVal where
  jiffies : Nat
  ujiffies : Nat
  deriving DecidableEq, Repr

def jiffvalCmp (a b : JiffVal) : Int :=
  if a.jiffies < b.jiffies then -1
  else if a.jiffies > b.jiffies then 1
  else if a.ujiffies < b.ujiffies then -1
  else if a.ujiffies > b.ujiffies then 1
  else 0

/-- `struct timer_list`, as far as `timer.c` looks into it. -/
structure TimerList where
  expires : Nat
  expiresUjiffies : Nat
  deriving DecidableEq, Repr

def timerLt (a b : TimerList) : Bool :=
  if a.expires < b.expires then true
  else if a.expires > b.expires then false
  else a.expiresUjiffies < b.expiresUjiffies

def timerLe (a b : TimerList) : Bool :=
  if a.expires < b.expires then true
  else if a.expires > b.expires then false
  else a.expiresUjiffies ≤ b.expiresUjiffies

/-- The variables of `timer.c`, and the records the pointers lead to. -/
structure Timers (τ : Type) where
  now : JiffVal
  jiffies : Nat
  timers : List τ
  timer : τ → TimerList

namespace Timers

variable {τ : Type} [DecidableEq τ]

def setTimer (timer : τ) (record : TimerList) (s : Timers τ) : Timers τ :=
  { s with timer := fun t => if t = timer then record else s.timer t }

/-- The walk of `add_hires_timer`: in front of the first later timer. -/
def insertTimer (record : τ → TimerList) (timer : τ) : List τ → List τ
  | [] => [timer]
  | walk :: rest =>
      if !timerLe (record walk) (record timer) then timer :: walk :: rest
      else walk :: insertTimer record timer rest

def addHiresTimer (timer : τ) (s : Timers τ) : Except String (Timers τ) :=
  let tmp : TimerList := ⟨s.now.jiffies, s.now.ujiffies⟩
  if timerLt (s.timer timer) tmp then .error "timer before current time"
  else .ok { s with timers := insertTimer s.timer timer s.timers }

def addTimer (timer : τ) (s : Timers τ) : Except String (Timers τ) :=
  addHiresTimer timer (s.setTimer timer ⟨(s.timer timer).expires, 0⟩)

def delTimer (timer : τ) (s : Timers τ) : Nat × Timers τ :=
  if timer ∈ s.timers then
    (1, { s with timers := s.timers.erase timer })
  else (0, s)

def modTimer (timer : τ) (expires : Nat) (s : Timers τ) :
    Except String (Nat × Timers τ) := do
  let (res, s) := delTimer timer s
  let s := s.setTimer timer ⟨expires, 0⟩
  let s ← addTimer timer s
  return (res, s)

/-! `advance_time`: the test before the loop, the loop's condition, what is
done before the function runs, and what is done after the loop. -/

def turnsBack (next : JiffVal) (s : Timers τ) : Bool :=
  jiffvalCmp next s.now < 0

def nextDue (next : JiffVal) (s : Timers τ) : Option τ :=
  match s.timers with
  | [] => none
  | this :: _ =>
      if timerLe (s.timer this) ⟨next.jiffies, next.ujiffies⟩ then some this
      else none

def startTimer (this : τ) (s : Timers τ) : Timers τ :=
  { s with
    timers := s.timers.tail
    now := ⟨(s.timer this).expires, (s.timer this).expiresUjiffies⟩
    jiffies := (s.timer this).expires }

def arrive (next : JiffVal) (s : Timers τ) : Timers τ :=
  { s with now := next, jiffies := next.jiffies }

end Timers

/-! ## Runs -/

/-- Where control is: outside of `advance_time`, at the head of its loop, or in
the function of a timer that the loop has taken off the list. -/
inductive Control where
  | outside
  | loop (next : JiffVal)
  | function (next : JiffVal)
  deriving DecidableEq

/-- What has happened to the timers, and the results of `advance_time`. -/
inductive TimerEvent (τ : Type) where
  | added (timer : τ) (expiry : JiffVal)
  | deleted (timer : τ)
  | ran (timer : τ) (now : JiffVal)
  | advanced (next : JiffVal) (result : Int)
  deriving DecidableEq

inductive TimerStep (τ : Type) where
  | addHiresTimer (timer : τ) (record : TimerList)
  | delTimer (timer : τ)
  | modTimer (timer : τ) (expires : Nat)
  | advanceTime (next : JiffVal)
  | loop
  | functionReturns

/-- The program, and the events so far, the latest one at the end. -/
structure TimerSystem (τ : Type) where
  timers : Timers τ
  control : Control
  log : List (TimerEvent τ)

namespace TimerSystem

variable {τ : Type} [DecidableEq τ]

def initial (timer : τ → TimerList) : TimerSystem τ :=
  ⟨⟨⟨0, 0⟩, 0, [], timer⟩, .outside, []⟩

/-- The part of the program outside of `advance_time`'s own lines. -/
def inCaller (s : TimerSystem τ) : Bool :=
  match s.control with
  | .loop _ => false
  | _ => true

/-- The caller sets the time of a timer that is not pending, and adds it. -/
def addHiresTimer (timer : τ) (record : TimerList) (s : TimerSystem τ) :
    Option (TimerSystem τ) := do
  guard (s.inCaller ∧ timer ∉ s.timers.timers)
  let timers ←
    ((s.timers.setTimer timer record).addHiresTimer timer).toOption
  return { s with
    timers := timers
    log := s.log ++
      [.added timer ⟨record.expires, record.expiresUjiffies⟩] }

def deletedEvents (timer : τ) (res : Nat) : List (TimerEvent τ) :=
  if res = 1 then [.deleted timer] else []

def delTimer (timer : τ) (s : TimerSystem τ) : Option (TimerSystem τ) := do
  guard s.inCaller
  let (res, timers) := s.timers.delTimer timer
  return { s with
    timers := timers, log := s.log ++ deletedEvents timer res }

def modTimer (timer : τ) (expires : Nat) (s : TimerSystem τ) :
    Option (TimerSystem τ) := do
  guard s.inCaller
  let (res, timers) ← (s.timers.modTimer timer expires).toOption
  return { s with
    timers := timers
    log := s.log ++ deletedEvents timer res ++ [.added timer ⟨expires, 0⟩] }

/-- `advance_time` is called, but not by the function of a timer. -/
def advanceTime (next : JiffVal) (s : TimerSystem τ) :
    Option (TimerSystem τ) := do
  guard (s.control = .outside)
  if s.timers.turnsBack next then
    return { s with log := s.log ++ [.advanced next (-1)] }
  else return { s with control := .loop next }

/-- From the head of the loop to the function of the first timer, or out. -/
def loop (s : TimerSystem τ) : Option (TimerSystem τ) :=
  match s.control with
  | .loop next =>
      match s.timers.nextDue next with
      | some this =>
          let timers := s.timers.startTimer this
          some ⟨timers, .function next, s.log ++ [.ran this timers.now]⟩
      | none =>
          some ⟨s.timers.arrive next, .outside, s.log ++ [.advanced next 0]⟩
  | _ => none

/-- `kernel_poll` follows, which is taken to do nothing else. -/
def functionReturns (s : TimerSystem τ) : Option (TimerSystem τ) :=
  match s.control with
  | .function next => some { s with control := .loop next }
  | _ => none

def step (s : TimerSystem τ) : TimerStep τ → Option (TimerSystem τ)
  | .addHiresTimer timer record => s.addHiresTimer timer record
  | .delTimer timer => s.delTimer timer
  | .modTimer timer expires => s.modTimer timer expires
  | .advanceTime next => s.advanceTime next
  | .loop => s.loop
  | .functionReturns => s.functionReturns

def run : List (TimerStep τ) → TimerSystem τ → Option (TimerSystem τ)
  | [], s => some s
  | first :: rest, s => (s.step first).bind (run rest)

end TimerSystem

end Tcng.Tcsim
