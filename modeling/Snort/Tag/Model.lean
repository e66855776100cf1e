import Snort.Lib.CInt

/-!
# Tagged sessions and hosts

* `TagNode`, `TagCaches`: what is tagged, and for how long;
* `addTagNode`: a rule sets a tag;
* `checkTagList`: a packet is looked up, counted and perhaps logged.

A cache is a partial function on its keys.  The pruning of nodes that were not accessed for long is left out.
-/

namespace Snort.Tag

open CInt

/-- `tTagSessionKey`. -/
structure TagSessionKey (Ip : Type*) where
  sip : Ip
  dip : Ip
  sp : ℕ
  dp : ℕ
  deriving DecidableEq

/-- `SwapTag`. -/
def TagSessionKey.swap {Ip : Type*} (key : TagSessionKey Ip) : TagSessionKey Ip :=
  ⟨key.dip, key.sip, key.dp, key.sp⟩

/-- The bits of `TAG_METRIC_SECONDS` and the others. -/
structure Metric where
  seconds : Bool
  packets : Bool
  bytes : Bool
  unlimited : Bool
  deriving DecidableEq

/-- `TAG_SESSION`, `TAG_HOST_SRC` and `TAG_HOST_DST`. -/
inductive TagMode
  | session | hostSrc | hostDst
  deriving DecidableEq

/-- `TagData`. -/
structure TagData where
  tagSeconds : ℤ
  tagPackets : ℤ
  tagBytes : ℤ
  tagMetric : Metric
  deriving DecidableEq

/-- A packet, with its addresses as a key and its time in seconds and microseconds. -/
structure Packet (Ip : Type*) where
  key : TagSessionKey Ip
  ipLen : ℕ
  sec : ℕ
  usec : ℕ
  valid : Bool

/-- `TagNode` without its key. -/
structure TagNode where
  seconds : ℤ
  packets : ℤ
  bytes : ℤ
  pktCount : ℕ
  metric : Metric
  mode : TagMode
  lastAccess : ℕ
  eventId : ℕ
  eventTime : ℕ × ℕ
  deriving DecidableEq

/-- The two caches. -/
structure TagCaches (Ip : Type*) where
  host : Ip → Option TagNode
  ssn : TagSessionKey Ip → Option TagNode

/-- What a logged packet refers to. -/
structure EventRef where
  eventId : ℕ
  refTime : ℕ × ℕ
  deriving DecidableEq

variable {Ip : Type*} [DecidableEq Ip]

/-- The first of two keys that has a node. -/
def findKey {κ : Type*} (cache : κ → Option TagNode) (key key' : κ) : Option κ :=
  if (cache key).isSome then some key else if (cache key').isSome then some key' else none

/-! ### Setting tags -/

/-- The node of a new tag. -/
def newTagNode (p : Packet Ip) (tag : TagData) (mode : TagMode) (eventId : ℕ) : TagNode where
  seconds := if tag.tagMetric.seconds then i32 (p.sec + tag.tagSeconds) else 0
  packets := if tag.tagMetric.packets then tag.tagPackets else 0
  bytes := if tag.tagMetric.bytes then tag.tagBytes else 0
  pktCount := 0
  metric := tag.tagMetric
  mode := mode
  lastAccess := p.sec
  eventId := eventId
  eventTime := (p.sec, p.usec)

/-- A new tag for what is tagged already. -/
def mergeTagNode (returned idx : TagNode) : TagNode :=
  { returned with
    seconds := if idx.metric.seconds then idx.seconds else i32 (returned.seconds + idx.seconds) }

/-- A cache with a new tag, which is added under `target` where the keys have no node. -/
def addTo {κ : Type*} [DecidableEq κ] (cache : κ → Option TagNode) (key key' target : κ) (idx : TagNode) :
    κ → Option TagNode :=
  match findKey cache key key' with
  | none => Function.update cache target (some idx)
  | some k => Function.update cache k ((cache k).map fun returned => mergeTagNode returned idx)

/-- `AddTagNode`. -/
def addTagNode (c : TagCaches Ip) (p : Packet Ip) (tag : TagData) (mode : TagMode) (eventId : ℕ) :
    TagCaches Ip :=
  let idx := newTagNode p tag mode eventId
  match mode with
  | .session => { c with ssn := addTo c.ssn p.key p.key.swap p.key idx }
  | .hostSrc => { c with host := addTo c.host p.key.sip p.key.dip p.key.sip idx }
  | .hostDst => { c with host := addTo c.host p.key.sip p.key.dip p.key.dip idx }

/-! ### Checking packets -/

/-- The counters of a node behind a packet. -/
def countPacket (p : Packet Ip) (n : TagNode) : TagNode :=
  { n with
    lastAccess := p.sec
    seconds := if n.metric.seconds ∧ n.seconds < p.sec then 0 else n.seconds
    packets := if n.metric.packets then if n.packets - 1 < 0 then 0 else n.packets - 1 else n.packets
    bytes := if n.metric.bytes then if n.bytes - p.ipLen < 0 then 0 else n.bytes - p.ipLen else n.bytes
    pktCount := n.pktCount + 1 }

/-- `create_event`. -/
def createEvent (taggedPacketLimit : ℕ) (n : TagNode) : Bool :=
  ¬(n.metric.packets ∧ n.packets - 1 < 0) ∧
    ¬((n.metric.packets = false ∧ n.metric.unlimited = false) ∧
      taggedPacketLimit ≠ 0 ∧ taggedPacketLimit < n.pktCount + 1)

/-- A packet for a node, which may be removed, and the event. -/
def touch (taggedPacketLimit : ℕ) (p : Packet Ip) (n : TagNode) : Option TagNode × Option EventRef :=
  let n' := countPacket p n
  (if n'.bytes = 0 ∧ n'.packets = 0 ∧ n'.seconds = 0 then none else some n',
    if createEvent taggedPacketLimit n then some ⟨n.eventId, n.eventTime⟩ else none)

/-- A packet for the node under one of two keys. -/
def touchAt {κ : Type*} [DecidableEq κ] (taggedPacketLimit : ℕ) (p : Packet Ip) (cache : κ → Option TagNode)
    (k : κ) : (κ → Option TagNode) × Option EventRef :=
  match cache k with
  | none => (cache, none)
  | some n =>
    let r := touch taggedPacketLimit p n
    (Function.update cache k r.1, r.2)

/-- `CheckTagList`; 1 is returned with an event. -/
def checkTagList (taggedPacketLimit : ℕ) (c : TagCaches Ip) (p : Packet Ip) : TagCaches Ip × Option EventRef :=
  if p.valid = false then (c, none)
  else
    match findKey c.ssn p.key p.key.swap with
    | some k =>
      let r := touchAt taggedPacketLimit p c.ssn k
      ({ c with ssn := r.1 }, r.2)
    | none =>
      match findKey c.host p.key.dip p.key.sip with
      | some a =>
        let r := touchAt taggedPacketLimit p c.host a
        ({ c with host := r.1 }, r.2)
      | none => (c, none)

/-- A packet is checked, or a rule sets a session tag for it. -/
inductive TagEvent (Ip : Type*)
  | packet (p : Packet Ip)
  | setTags (p : Packet Ip) (tag : TagData) (eventId : ℕ)

def tagStep (c : TagCaches Ip) : TagEvent Ip → TagCaches Ip × Option EventRef
  | .packet p => checkTagList 0 c p
  | .setTags p tag eventId => (addTagNode c p tag .session eventId, none)

end Snort.Tag
