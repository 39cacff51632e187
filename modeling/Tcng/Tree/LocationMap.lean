import Tcng.Data
import Tcng.Police
import Tcng.Tree.Qdisc

/-! The location map, and looking up the location of an object (`location.c`).
A location is known by its address in `L`. -/

namespace Tcng.LocationMap

/-- `LOCATION`, what is stored at an address. -/
structure Location where
  file : Option (List Char)
  tag : Option (List Char)
  line : Int
  deriving DecidableEq, Repr

structure Tunnel (L : Type) where
  number : BitVec 32
  location : L
  deriving DecidableEq, Repr

/-- `tunnel` is `parent.tunnel` if `parent.class` is `class_is_tunnel`. -/
structure Element (L : Type) where
  number : BitVec 32
  location : L
  tunnel : Option (Tunnel L)
  deriving DecidableEq, Repr

structure Filter (L : Type) where
  number : BitVec 32
  location : L
  elements : List (Element L)
  deriving DecidableEq, Repr

structure ClassInfo (L : Type) where
  number : BitVec 32
  location : L
  filters : List (Filter L)
  deriving DecidableEq, Repr

/-- `ingress` tells whether `dsc` is `ingress_dsc`. -/
structure QdiscInfo (L : Type) where
  ingress : Bool
  number : BitVec 32
  location : L
  filters : List (Filter L)
  deriving DecidableEq, Repr

abbrev QdiscTree (L : Type) := Qdisc (QdiscInfo L) (ClassInfo L)

abbrev ClassTree (L : Type) := Classes (QdiscInfo L) (ClassInfo L)

structure Device (L : Type) where
  name : List Char
  location : L
  ingress : QdiscTree L
  egress : QdiscTree L

structure Police (L : Type) extends Tcng.Police where
  location : L
  deriving DecidableEq, Repr

structure Config (L : Type) where
  devices : List (Device L)
  policers : List (Police L)

/-! Objects with their parents. -/

structure QdiscAt (L : Type) where
  device : Device L
  info : QdiscInfo L
  classes : ClassTree L

structure ClassAt (L : Type) where
  qdisc : QdiscAt L
  info : ClassInfo L

inductive FilterParent (L : Type)
  | qdisc (q : QdiscAt L)
  | class (c : ClassAt L)

structure FilterAt (L : Type) where
  parent : FilterParent L
  filter : Filter L

inductive Object (L : Type)
  | device (dev : Device L)
  | qdisc (q : QdiscAt L)
  | class (c : ClassAt L)
  | filter (f : FilterAt L)
  | element (f : FilterAt L) (n : Nat) (e : Element L)
  | tunnel (f : FilterAt L) (t : Tunnel L)
  | police (p : Police L)

variable {L : Type}

/-! ## Dump location map -/

/-- `%u` -/
def unsigned (n : BitVec 32) : List Char := Nat.toDigits 10 n.toNat

def idDevice (dev : Device L) : List Char := dev.name

def idQdisc (q : QdiscAt L) : List Char :=
  idDevice q.device ++
    if q.info.ingress then ":ingress".toList
    else ':' :: unsigned q.info.number

def idClass (c : ClassAt L) : List Char :=
  idQdisc c.qdisc ++
    if c.info.number = undefU32 then ":unnumbered".toList
    else ':' :: unsigned c.info.number

def FilterParent.id : FilterParent L → List Char
  | .class c => idClass c
  | .qdisc q => idQdisc q ++ [':']

def idFilter (f : FilterAt L) : List Char :=
  f.parent.id ++ ':' :: unsigned f.filter.number

def idTunnel (f : FilterAt L) (t : Tunnel L) : List Char :=
  idFilter f ++ ':' :: unsigned t.number

namespace Object

def type : Object L → List Char
  | .device _ => "device".toList
  | .qdisc _ => "qdisc".toList
  | .class _ => "class".toList
  | .filter _ => "filter".toList
  | .element _ _ _ => "element".toList
  | .tunnel _ _ => "tunnel".toList
  | .police _ => "police".toList

def id : Object L → List Char
  | .device dev => idDevice dev
  | .qdisc q => idQdisc q
  | .class c => idClass c
  | .filter f => idFilter f
  | .element f n _ => idFilter f ++ ':' :: Nat.toDigits 10 n
  | .tunnel f t => idTunnel f t
  | .police p => unsigned p.number

def location : Object L → L
  | .device dev => dev.location
  | .qdisc q => q.info.location
  | .class c => c.info.location
  | .filter f => f.filter.location
  | .element _ _ e => e.location
  | .tunnel _ t => t.location
  | .police p => p.location

/-- The type and the identifier, as they stand in a line. -/
def spec (o : Object L) : List Char := o.type ++ ' ' :: o.id

end Object

section

variable [DecidableEq L]

/-- `elements` are those before the ones to map, and `n` is their number. -/
def mapElementsFrom (filter : FilterAt L) (before : List (Element L))
    (n : Nat) : List (Element L) → List (Object L)
  | [] => []
  | element :: rest =>
      let tunnels := match element.tunnel with
        | some tunnel =>
            if before.any (fun scan => scan.tunnel = some tunnel) then []
            else [.tunnel filter tunnel]
        | none => []
      .element filter n element ::
        (tunnels ++ mapElementsFrom filter (before ++ [element]) (n + 1) rest)

def mapElements (filter : FilterAt L) : List (Object L) :=
  mapElementsFrom filter [] 0 filter.filter.elements

def mapFilters (parent : FilterParent L) (filters : List (Filter L)) :
    List (Object L) :=
  filters.flatMap fun filter =>
    .filter ⟨parent, filter⟩ :: mapElements ⟨parent, filter⟩

mutual

def mapQdisc (device : Device L) : QdiscTree L → List (Object L)
  | .null => []
  | .qdisc info classes =>
      let qdisc := ⟨device, info, classes⟩
      .qdisc qdisc :: (mapClasses qdisc classes ++
        mapFilters (.qdisc qdisc) info.filters)

def mapClasses (parent : QdiscAt L) : ClassTree L → List (Object L)
  | .null => []
  | .class info qdisc child next =>
      .class ⟨parent, info⟩ :: (mapClasses parent child ++
        mapQdisc parent.device qdisc ++
        mapFilters (.class ⟨parent, info⟩) info.filters ++
        mapClasses parent next)

end

def mapDevices (devices : List (Device L)) : List (Object L) :=
  devices.flatMap fun device =>
    .device device ::
      (mapQdisc device device.ingress ++ mapQdisc device device.egress)

def mapPolicers (policers : List (Police L)) : List (Object L) :=
  (policers.filter (·.used)).map .police

/-- The objects for which there are lines. -/
def Config.mapped (config : Config L) : List (Object L) :=
  mapDevices config.devices ++ mapPolicers config.policers

def mapFile (file : Option (List Char)) : List Char :=
  let fileName := match file with
    | some (c :: rest) => c :: rest
    | _ => ['-']
  if fileName.any (fun c => c ≤ ' ' || '~' < c) then "<unprintable>".toList
  else fileName

def doMap (loc : Location) : List Char :=
  ' ' :: loc.tag.getD ['-'] ++ ' ' :: mapFile loc.file ++
    ' ' :: (toString loc.line).toList ++ ['\n']

def writeLocationMap (config : Config L) (stored : L → Location) :
    List (List Char) :=
  config.mapped.map fun o => o.spec ++ doMap (stored o.location)

end

/-! ## Look up location by specification -/

/-- A lookup follows `NULL`, returns `NULL`, or finds something. -/
inductive Lookup (α : Type)
  | crash
  | null
  | found (x : α)
  deriving DecidableEq, Repr

namespace Lookup

variable {α β : Type}

protected def bind (x : Lookup α) (f : α → Lookup β) : Lookup β :=
  match x with
  | .crash => .crash
  | .null => .null
  | .found x => f x

instance : Monad Lookup where
  pure := .found
  bind := Lookup.bind

def ofOption : Option α → Lookup α
  | none => .null
  | some x => .found x

/-- Following a pointer that may be `NULL`. -/
def follow : Option α → Lookup α
  | none => .crash
  | some x => .found x

end Lookup

/-- `id` is left alone where there is no device. -/
def scanDevice (devices : List (Device L)) (id : List Char) :
    Option (Device L) × List Char :=
  let name := id.takeWhile (· ≠ ':')
  match devices.find? (fun dev => dev.name = name) with
  | some dev => (some dev, id.drop name.length)
  | none => (none, id)

def scanNumberFrom (ok : Bool) (res : BitVec 32) :
    List Char → Option (BitVec 32 × List Char)
  | [] => if ok then some (res, []) else none
  | c :: id =>
      if c = ':' then if ok then some (res, c :: id) else none
      else if c.isDigit then
        scanNumberFrom true
          (res * 10 + .ofNat 32 c.toNat - .ofNat 32 '0'.toNat) id
      else none

def scanNumber (id : List Char) : Lookup (BitVec 32 × List Char) :=
  .ofOption (scanNumberFrom false 0 id)

/-- `**id == c`, then `(*id)++` -/
def scanChar (c : Char) : List Char → Lookup (List Char)
  | [] => .null
  | c' :: id => if c' = c then .found id else .null

mutual

def findQdisc (num : BitVec 32) :
    QdiscTree L → Option (QdiscInfo L × ClassTree L)
  | .null => none
  | .qdisc info classes =>
      if info.number = num then some (info, classes)
      else findQdiscInClasses num classes

def findQdiscInClasses (num : BitVec 32) :
    ClassTree L → Option (QdiscInfo L × ClassTree L)
  | .null => none
  | .class _ qdisc child next =>
      findQdisc num qdisc <|> findQdiscInClasses num child <|>
        findQdiscInClasses num next

end

/-- What a pointer to a qdisc points to. -/
def top : QdiscTree L → Option (QdiscInfo L × ClassTree L)
  | .null => none
  | .qdisc info classes => some (info, classes)

/-- `!strncmp(id,"ingress",7) && (!id[7] || id[7] == ':')`, then `id += 7` -/
def scanIngress (id : List Char) : Option (List Char) :=
  if "ingress".toList.isPrefixOf id then
    match id.drop 7 with
    | [] => some []
    | c :: rest => if c = ':' then some (c :: rest) else none
  else none

def scanQdisc (devices : List (Device L)) (id : List Char) :
    Lookup ((QdiscInfo L × ClassTree L) × List Char) := do
  let (dev, id) := scanDevice devices id
  let id ← scanChar ':' id
  match scanIngress id with
  | some id =>
      let dev ← .follow dev
      let q ← .ofOption (top dev.ingress)
      return (q, id)
  | none =>
      let (num, id) ← scanNumber id
      let dev ← .follow dev
      let _ ← .follow (top dev.egress)
      let q ← .ofOption (findQdisc num dev.egress)
      return (q, id)

def findClass (num : BitVec 32) : ClassTree L → Option (ClassInfo L)
  | .null => none
  | .class info _ child next =>
      if info.number = num then some info
      else findClass num child <|> findClass num next

/-- `qoc_qdisc` and `qoc_class` -/
inductive QdiscOrClass (L : Type)
  | qdisc (info : QdiscInfo L)
  | class (info : ClassInfo L)

def scanQdiscOrClass (devices : List (Device L)) (id : List Char) :
    Lookup (QdiscOrClass L × List Char) := do
  let (q, id) ← scanQdisc devices id
  let id ← scanChar ':' id
  match id with
  | ':' :: rest => return (.qdisc q.1, ':' :: rest)
  | id =>
      let (num, id) ← scanNumber id
      let c ← .ofOption (findClass num q.2)
      return (.class c, id)

def QdiscOrClass.filters : QdiscOrClass L → List (Filter L)
  | .qdisc q => q.filters
  | .class c => c.filters

def scanFilter (devices : List (Device L)) (id : List Char) :
    Lookup (Filter L × List Char) := do
  let (parent, id) ← scanQdiscOrClass devices id
  let id ← scanChar ':' id
  let (num, id) ← scanNumber id
  let f ← .ofOption (parent.filters.find? fun f => f.number = num)
  return (f, id)

/-- `*id ? NULL : …` -/
def atEnd : List Char → Lookup Unit
  | [] => .found ()
  | _ :: _ => .null

def deviceLocation (config : Config L) (id : List Char) : Lookup L := do
  let (dev, id) := scanDevice config.devices id
  atEnd id
  let dev ← .ofOption dev
  return dev.location

def qdiscLocation (config : Config L) (id : List Char) : Lookup L := do
  let (q, id) ← scanQdisc config.devices id
  atEnd id
  return q.1.location

def classLocation (config : Config L) (id : List Char) : Lookup L := do
  match ← scanQdiscOrClass config.devices id with
  | (.class c, id) =>
      atEnd id
      return c.location
  | (.qdisc _, _) => .null

def filterLocation (config : Config L) (id : List Char) : Lookup L := do
  let (f, id) ← scanFilter config.devices id
  atEnd id
  return f.location

/-- What `tunnel_location` and `element_location` begin with. -/
def scanMember (config : Config L) (id : List Char) :
    Lookup (Filter L × BitVec 32) := do
  let (f, id) ← scanFilter config.devices id
  let id ← scanChar ':' id
  let (num, id) ← scanNumber id
  atEnd id
  return (f, num)

def tunnelLocation (config : Config L) (id : List Char) : Lookup L := do
  let (f, num) ← scanMember config id
  let t ← .ofOption ((f.elements.filterMap (·.tunnel)).find? fun t =>
    t.number = num)
  return t.location

def elementLocation (config : Config L) (id : List Char) : Lookup L := do
  let (f, num) ← scanMember config id
  let e ← .ofOption (f.elements.find? fun e => e.number = num)
  return e.location

def policeLocation (config : Config L) (id : List Char) : Lookup L := do
  let (num, id) ← scanNumber id
  atEnd id
  let p ← .ofOption (config.policers.find? fun p => p.number = num)
  return p.location

/-- The `SEL` macro: on to `next` where `spec` begins with something else. -/
def sel (name : String) (location : List Char → Lookup L)
    (next : List Char → Lookup L) (spec : List Char) : Lookup L :=
  if (name.toList ++ [' ']).isPrefixOf spec then
    location (spec.drop (name.toList.length + 1))
  else next spec

def locationBySpec (config : Config L) : List Char → Lookup L :=
  sel "device" (deviceLocation config) <|
  sel "qdisc" (qdiscLocation config) <|
  sel "class" (classLocation config) <|
  sel "filter" (filterLocation config) <|
  sel "tunnel" (tunnelLocation config) <|
  sel "element" (elementLocation config) <|
  sel "police" (policeLocation config) fun _ => .null

end Tcng.LocationMap
