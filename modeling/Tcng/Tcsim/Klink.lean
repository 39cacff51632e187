import Tcng.Tcsim.Timer

/-!
`tcsim/klink.c`: how packets get into the queues of devices, from there to the
wire, and from one host to the next one. The queuing disciplines are kernel
code: a device has functions for them, which may do anything to a queue. What
is printed is left out.
-/

namespace Tcng.Tcsim

/-- The metadata of a packet that crossing a link resets. -/
structure Attributes where
  nfmark : Nat
  priority : Nat
  tcIndex : Nat
  deriving DecidableEq

structure SkBuff where
  address : Nat
  data : List (BitVec 8)
  protocol : Nat
  attributes : Attributes
  deriving DecidableEq

def SkBuff.len (skb : SkBuff) : Nat :=
  skb.data.length

structure Route (δ : Type) where
  addr : BitVec 32
  mask : BitVec 32
  dev : δ

/-- `struct Qdisc`; its functions see the time. -/
structure Qdisc (σ : Type) where
  enqueue : Option (JiffVal → SkBuff → σ → Int × σ)
  dequeue : Option (JiffVal → σ → Option SkBuff × σ)

/-- What does not change while packets are sent: the devices, their routes and
connections, and the options. `transmitted` is the time when the last bit of a
packet of that length is sent, which the code computes with `double`. -/
structure Network (δ σ : Type) where
  devBase : List δ
  nodup : devBase.Nodup
  name : δ → String
  kbps : δ → Int
  peer : δ → Option δ
  routes : δ → List (Route δ)
  qdisc : δ → Option (Qdisc σ)
  qdiscIngress : δ → Option (JiffVal → SkBuff → σ → Bool × SkBuff × σ)
  preserve : Bool
  defaultAttributes : Attributes
  transmitted : JiffVal → Nat → Int → JiffVal

/-- `txing`: nothing, the mark of a device that waits for `poll`, or a packet. -/
inductive Txing where
  | null
  | busyHack
  | packet (skb : SkBuff)
  deriving DecidableEq

structure NetDevice (σ : Type) where
  txing : Txing
  scheduled : Bool
  queue : σ

/-- The pointer to the timer of a `struct dev_poll` with its `dev`, or to the
timer of another part of the program. -/
inductive KernelTimer (δ : Type) where
  | devPoll (address : Nat) (dev : δ)
  | other (address : Nat)
  deriving DecidableEq

/-- A packet of a device with a rate is dequeued, and gets a timer; the
function of the timer is run; a packet is handed to the peer or freed. -/
inductive LinkEvent (δ : Type) where
  | dequeued (dev : δ) (skb : SkBuff) (expiry : JiffVal)
  | fired (dev : δ) (now : JiffVal)
  | delivered (dev : δ) (skb : SkBuff) (now : JiffVal)
  | advanced (next : JiffVal)
  deriving DecidableEq

/-- `exit`, or a pointer that is `NULL` where it is followed. -/
inductive Failure (δ : Type) where
  | errorf (text : String)
  | noQdisc (dev : δ)
  | notTransmitting (dev : δ)
  deriving DecidableEq

/-- The commands `send` and `poll`; another part of the program adds a timer;
`advance_time` is called; its loop goes on; a function that it runs returns. -/
inductive LinkStep (δ : Type) where
  | send (dev : Option δ) (buf : List (BitVec 8)) (protocol : Nat)
      (attr : Attributes)
  | poll (dev : Option δ)
  | addTimer (address : Nat) (record : TimerList)
  | advanceTime (next : JiffVal)
  | loop
  | functionReturns

structure Klink (δ σ : Type) where
  device : δ → NetDevice σ
  timers : Timers (KernelTimer δ)
  allocated : Nat
  control : Control
  log : List (LinkEvent δ)

namespace Klink

variable {δ σ : Type} [DecidableEq δ]

def setDevice (dev : δ) (record : NetDevice σ) (s : Klink δ σ) : Klink δ σ :=
  { s with device := fun d => if d = dev then record else s.device d }

def setTxing (dev : δ) (txing : Txing) (s : Klink δ σ) : Klink δ σ :=
  s.setDevice dev { s.device dev with txing := txing }

def setQueue (dev : δ) (queue : σ) (s : Klink δ σ) : Klink δ σ :=
  s.setDevice dev { s.device dev with queue := queue }

def netifSchedule (dev : δ) (s : Klink δ σ) : Klink δ σ :=
  s.setDevice dev { s.device dev with scheduled := true }

/-- `__kernel_enqueue`; `skb->dev` is `dev` at all its calls. -/
def enqueue (net : Network δ σ) (dev : δ) (skb : SkBuff) (s : Klink δ σ) :
    Except (Failure δ) (Int × Klink δ σ) :=
  let s := s.netifSchedule dev
  match (net.qdisc dev).bind Qdisc.enqueue with
  | none => .error (.noQdisc dev)
  | some enqueue =>
      let (res, queue) := enqueue s.timers.now skb (s.device dev).queue
      .ok (res, s.setQueue dev queue)

/-- The length in the header of what looks like an IPv4 packet. -/
def setTotLen (data : List (BitVec 8)) : List (BitVec 8) :=
  let first := (data.getD 0 0).toNat
  if first / 16 = 4 ∧ 5 ≤ first % 16 ∧ 20 ≤ data.length then
    (data.set 2 (BitVec.ofNat 8 (data.length / 256))).set 3
      (BitVec.ofNat 8 data.length)
  else data

/-- The device of a packet; without a name it is the only one. -/
def sendingDevice (net : Network δ σ) :
    Option δ → Except (Failure δ) δ
  | some dev => .ok dev
  | none =>
      match net.devBase with
      | [] => .error (.errorf "no device configured")
      | [dev] => .ok dev
      | _ :: _ :: _ =>
          .error (.errorf "must specify device when using multiple devices")

def kernelEnqueue (net : Network δ σ) (dev : Option δ)
    (buf : List (BitVec 8)) (protocol : Nat) (attr : Attributes)
    (s : Klink δ σ) : Except (Failure δ) (Int × Klink δ σ) := do
  let dev ← sendingDevice net dev
  if ((net.qdisc dev).bind Qdisc.enqueue).isNone then
    .error (.errorf ("device " ++ net.name dev ++ " is not configured\n"))
  else
    let skb : SkBuff := ⟨s.allocated, setTotLen buf, protocol, attr⟩
    enqueue net dev skb { s with allocated := s.allocated + 1 }

/-- The destination address of an IPv4 packet. -/
def destination (skb : SkBuff) : BitVec 32 :=
  skb.data.getD 16 0 ++ skb.data.getD 17 0 ++ skb.data.getD 18 0 ++
    skb.data.getD 19 0

/-- Crossing a link resets the metadata, unless the user preserves it. -/
def received (net : Network δ σ) (skb : SkBuff) : SkBuff :=
  if net.preserve then skb
  else { skb with attributes := net.defaultAttributes }

/-- `incoming`, from the packet's length on: to the queue of the device that
the host's first matching route names. A packet that is dropped is freed, which
changes nothing here. -/
def forward (net : Network δ σ) (dev : δ) (skb : SkBuff) (s : Klink δ σ) :
    Except (Failure δ) (Klink δ σ) :=
  if skb.len < 20 then .ok s
  else
    match (net.routes dev).find?
        (fun rt => (rt.addr ^^^ destination skb) &&& rt.mask = 0) with
    | none => .ok s
    | some rt => (enqueue net rt.dev skb s).map Prod.snd

def incoming (net : Network δ σ) (dev : δ) (skb : SkBuff) (s : Klink δ σ) :
    Except (Failure δ) (Klink δ σ) :=
  match net.qdiscIngress dev with
  | none => forward net dev (received net skb) s
  | some enqueue =>
      let (accept, skb, queue) :=
        enqueue s.timers.now (received net skb) (s.device dev).queue
      let s := s.setQueue dev queue
      if !accept then .ok s else forward net dev skb s

/-- What becomes of a packet that has left its device. -/
def handOver (net : Network δ σ) (dev : δ) (skb : SkBuff) (s : Klink δ σ) :
    Except (Failure δ) (Klink δ σ) :=
  let s := { s with log := s.log ++ [.delivered dev skb s.timers.now] }
  match net.peer dev with
  | none => .ok s
  | some peer => incoming net peer skb s

def deliver (net : Network δ σ) (dev : δ) (s : Klink δ σ) :
    Except (Failure δ) (Klink δ σ) :=
  match (s.device dev).txing with
  | .busyHack => .ok (s.setTxing dev .null)
  | .null => .error (.notTransmitting dev)
  | .packet skb => (handOver net dev skb s).map (setTxing dev .null)

/-- The end of `kernel_poll_device`: a packet is on the wire, and a timer is
added that tells when it has left. -/
def transmit (net : Network δ σ) (dev : δ) (skb : SkBuff) (s : Klink δ σ) :
    Except (Failure δ) (Klink δ σ) :=
  let s := s.setTxing dev (.packet skb)
  if net.kbps dev > 0 then
    let next := net.transmitted s.timers.now skb.len (net.kbps dev)
    let dsc := KernelTimer.devPoll s.allocated dev
    match (s.timers.setTimer dsc ⟨next.jiffies, next.ujiffies⟩).addHiresTimer
        dsc with
    | .error text => .error (.errorf text)
    | .ok timers =>
        .ok { s with
          allocated := s.allocated + 1
          timers := timers
          log := s.log ++ [.dequeued dev skb next] }
  else .ok s

def takePacket (net : Network δ σ) (dev : δ) (s : Klink δ σ) :
    Except (Failure δ) (Klink δ σ) :=
  if (s.device dev).txing ≠ .null ∨ !(s.device dev).scheduled then .ok s
  else
    match (net.qdisc dev).bind Qdisc.dequeue with
    | none => .ok s
    | some dequeue =>
        let (skb, queue) := dequeue s.timers.now (s.device dev).queue
        let s := s.setQueue dev queue
        match skb with
        | none => .ok s
        | some skb => transmit net dev skb s

def kernelPollDevice (net : Network δ σ) (dev : δ) (unbusy : Bool)
    (s : Klink δ σ) : Except (Failure δ) (Klink δ σ) := do
  if unbusy ∧ (s.device dev).txing ≠ .null then
    let s ← deliver net dev s
    takePacket net dev s
  else takePacket net dev s

def pollAll (net : Network δ σ) (unbusy : Bool) :
    List δ → Klink δ σ → Except (Failure δ) (Klink δ σ)
  | [], s => .ok s
  | dev :: rest, s => do
      let s ← kernelPollDevice net dev unbusy s
      pollAll net unbusy rest s

def kernelPoll (net : Network δ σ) (dev : Option δ) (unbusy : Bool)
    (s : Klink δ σ) : Except (Failure δ) (Klink δ σ) :=
  match dev with
  | some dev => kernelPollDevice net dev unbusy s
  | none => pollAll net unbusy net.devBase s

/-- The function of the timer of a `struct dev_poll`. -/
def devDoPoll (net : Network δ σ) (dev : δ) (s : Klink δ σ) :
    Except (Failure δ) (Klink δ σ) := do
  let s := { s with log := s.log ++ [.fired dev s.timers.now] }
  let s ← deliver net dev s
  kernelPoll net (some dev) false s

/-! ## Steps

`cmd_run` for the commands `send` and `poll`, which the script and the function
of the timer of `every` call; `advance_time`, where the round of the loop for a
`struct dev_poll` is one step, and other functions are steps in between. -/

def cmdSend (net : Network δ σ) (dev : Option δ) (buf : List (BitVec 8))
    (protocol : Nat) (attr : Attributes) (s : Klink δ σ) :
    Except (Failure δ) (Klink δ σ) := do
  let (_, s) ← kernelEnqueue net dev buf protocol attr s
  kernelPoll net dev false s

def cmdPoll (net : Network δ σ) (dev : Option δ) (s : Klink δ σ) :
    Except (Failure δ) (Klink δ σ) :=
  kernelPoll net dev true s

def addTimer (address : Nat) (record : TimerList) (s : Klink δ σ) :
    Except (Failure δ) (Klink δ σ) :=
  match (s.timers.setTimer (.other address) record).addHiresTimer
      (.other address) with
  | .error text => .error (.errorf text)
  | .ok timers => .ok { s with timers := timers }

def loop (net : Network δ σ) (next : JiffVal) (s : Klink δ σ) :
    Except (Failure δ) (Klink δ σ) :=
  match s.timers.nextDue next with
  | none =>
      .ok { s with
        timers := s.timers.arrive next
        control := .outside
        log := s.log ++ [.advanced next] }
  | some this =>
      let s := { s with timers := s.timers.startTimer this }
      match this with
      | .other _ => .ok { s with control := .function next }
      | .devPoll _ dev => do
          let s ← devDoPoll net dev s
          kernelPoll net none false s

/-- Steps that control cannot take where it is change nothing. -/
def step (net : Network δ σ) (action : LinkStep δ) (s : Klink δ σ) :
    Except (Failure δ) (Klink δ σ) :=
  match action, s.control with
  | .loop, .loop next => s.loop net next
  | .loop, _ => .ok s
  | .functionReturns, .function next =>
      kernelPoll net none false { s with control := .loop next }
  | .functionReturns, _ => .ok s
  | .advanceTime next, .outside =>
      if s.timers.turnsBack next then .ok s
      else .ok { s with control := .loop next }
  | .advanceTime _, _ => .ok s
  | _, .loop _ => .ok s
  | .send dev buf protocol attr, _ => s.cmdSend net dev buf protocol attr
  | .poll dev, _ => s.cmdPoll net dev
  | .addTimer address record, _ =>
      if .other address ∈ s.timers.timers then .ok s
      else s.addTimer address record

def run (net : Network δ σ) :
    List (LinkStep δ) → Klink δ σ → Except (Failure δ) (Klink δ σ)
  | [], s => .ok s
  | first :: rest, s => do
      let s ← s.step net first
      run net rest s

/-- As `create_net_device` leaves the devices. -/
def initial (net : Network δ σ) (queue : δ → σ)
    (timer : KernelTimer δ → TimerList) : Klink δ σ where
  device dev :=
    ⟨if net.kbps dev ≤ 0 then .busyHack else .null, false, queue dev⟩
  timers := ⟨⟨0, 0⟩, 0, [], timer⟩
  allocated := 0
  control := .outside
  log := []

end Klink

end Tcng.Tcsim
