import Snort.Lib.Links
import Snort.Stream5.PafModel

/-!
# The queue of TCP segments: `snort_stream5_tcp.c`

`StreamQueue` puts the payload of a segment into the doubly linked list of a tracker and resolves its
overlaps with what is queued, by the reassembly policy of the target.  Addresses are numbers; a segment
that is allocated gets a new one.  The links of the segments are kept apart from their other fields.

The decisions on an overlap are functions of their own: `leftOverlap`, `rightOverlap`.
-/

namespace Snort.Stream5

open HiPaf (Byte)

/-- A variable of type `uint16_t`. -/
abbrev U16 := BitVec 16

/-- The address of a segment. -/
abbrev Ptr := ℕ

/-- `REASSEMBLY_POLICY_*`, and the policies `STREAM_POLICY_*` of the same names. -/
inductive ReassemblyPolicy
  | first
  | linux
  | bsd
  | oldLinux
  | last
  | windows
  | solaris
  | hpux11
  | irix
  | macos
  | hpux10
  | vista
  | windows2k3
  deriving DecidableEq

/-- `STREAM_FLPOLICY_*`. -/
inductive FlushPolicy
  | none
  | footprint
  | logical
  | response
  | slidingWindow
  | consumed
  | ignore
  | protocol
  | footprintIps
  | protocolIps
  deriving DecidableEq

/-- A TCP segment with a payload, `Packet` with its `TcpDataBlock`; `urp` is the urgent pointer, where
there is one. -/
structure Packet where
  seq : Seq
  data : List Byte
  syn : Bool
  urp : Option U16
  ts : U32
  caplen : U32

/-- `p->dsize`. -/
def Packet.dsize (p : Packet) : U16 := BitVec.ofNat 16 p.data.length

/-- `tdb->end_seq`, from `SetupTcpDataBlock`. -/
def Packet.endSeq (p : Packet) : Seq := p.seq + p.dsize.setWidth 32 + if p.syn then 1 else 0

/-- `StreamSegment` without its links; `payload` is the offset of the payload in the data that was
captured. -/
structure StreamSegment where
  data : List Byte
  payload : ℕ
  caplen : U32
  ts : U32
  seq : Seq
  origDsize : U16
  size : U16
  urgOffset : U16
  buffered : Bool

/-- `seq + size`. -/
def StreamSegment.fin (ss : StreamSegment) : Seq := ss.seq + ss.size.setWidth 32

/-- What is configured: `ips_data`, `STREAM5_CONFIG_PERFORMANCE`. -/
structure TcpConfig where
  ipsData : Bool
  performance : Bool

/-- `StreamTracker`, as far as its queue is concerned. -/
structure StreamTracker where
  links : Links Ptr
  segs : Ptr → StreamSegment
  fresh : Ptr
  seglist : Option Ptr
  seglistTail : Option Ptr
  seglistNext : Option Ptr
  rWinBase : Seq
  segCount : U32
  segBytesTotal : U32
  segBytesLogical : U32
  totalBytesQueued : U32
  totalSegsQueued : U32
  overlapCount : U32
  flushCount : U32
  osPolicy : ReassemblyPolicy
  reassemblyPolicy : ReassemblyPolicy
  flushPolicy : FlushPolicy
  flushPt : U32
  pafActive : Bool

/-- `STREAM_INSERT_OK`, `STREAM_INSERT_ANOMALY`. -/
inductive InsertResult
  | ok
  | anomaly
  deriving DecidableEq

/-! ### The list of segments -/

/-- Fields of a segment are written. -/
def StreamTracker.setSeg (st : StreamTracker) (x : Ptr) (ss : StreamSegment) : StreamTracker :=
  { st with segs := Function.update st.segs x ss }

/-- `Stream5SeglistAddNode`. -/
def seglistAddNode (st : StreamTracker) (prev : Option Ptr) (new : Ptr) : StreamTracker :=
  let next := prev.elim st.seglist st.links.next
  { st with
    links := st.links.link prev new next
    seglist := if prev = none then some new else st.seglist
    seglistTail := if next = none then some new else st.seglistTail
    segCount := st.segCount + 1 }

/-- A segment is allocated and added behind another, `SegmentAlloc` and `Stream5SeglistAddNode`. -/
def addSegment (st : StreamTracker) (left : Option Ptr) (ss : StreamSegment) : StreamTracker :=
  let st := seglistAddNode { st with segs := Function.update st.segs st.fresh ss } left st.fresh
  { st with
    fresh := st.fresh + 1
    segBytesTotal := st.segBytesTotal + ss.caplen
    totalSegsQueued := st.totalSegsQueued + 1 }

/-- `Stream5SeglistDeleteNode`. -/
def seglistDeleteNode (st : StreamTracker) (seg : Ptr) (flushSeq : Seq) : StreamTracker × U32 :=
  let ss := st.segs seg
  let delta := ss.fin - flushSeq
  if st.pafActive ∧ flushSeq ≠ 0 ∧ flushSeq < ss.fin ∧ delta < ss.size.setWidth 32 then
    ({ st.setSeg seg { ss with seq := flushSeq, size := ss.size - delta.setWidth 16 } with
      segBytesLogical := st.segBytesLogical - delta }, 0)
  else
    ({ st with
      links := st.links.unlink seg
      seglist := if st.links.prev seg = none then st.links.next seg else st.seglist
      seglistTail := if st.links.next seg = none then st.links.prev seg else st.seglistTail
      seglistNext := if st.seglistNext = some seg then none else st.seglistNext
      segBytesLogical := st.segBytesLogical - ss.size.setWidth 32
      segBytesTotal := st.segBytesTotal - ss.caplen
      segCount := st.segCount - 1
      flushCount := if ss.buffered then st.flushCount - 1 else st.flushCount }, ss.caplen)

/-! ### New segments -/

/-- The urgent offset that `AddStreamNode` keeps. -/
def urgOffset (osPolicy : ReassemblyPolicy) (p : Packet) : U16 :=
  match p.urp with
  | none => 0
  | some urp =>
    if urp < p.dsize then
      match osPolicy with
      | .linux | .oldLinux => if urp = 0 then 1 else urp
      | _ => if p.dsize < urp then 0 else urp
    else 0

/-- The segment that `AddStreamNode` makes, unless nothing is left of it; `len` is an `int16_t`. -/
def newSegment (osPolicy : ReassemblyPolicy) (p : Packet) (len : U16) (slide trunc : U32) (seq : Seq) :
    Option StreamSegment :=
  let newSize := len.signExtend 32 - slide - trunc
  if newSize.toInt ≤ 0 then none
  else some {
    data := p.data
    payload := slide.toNat
    caplen := p.caplen
    ts := p.ts
    seq := seq
    origDsize := p.dsize
    size := newSize.setWidth 16
    urgOffset := urgOffset osPolicy p
    buffered := false }

/-- `AddStreamNode`. -/
def addStreamNode (st : StreamTracker) (p : Packet) (len : U16) (slide trunc : U32) (seq : Seq)
    (left : Option Ptr) : StreamTracker × InsertResult :=
  match newSegment st.osPolicy p len slide trunc seq with
  | none => (st, .anomaly)
  | some ss =>
    ({ addSegment st left ss with
      segBytesLogical := st.segBytesLogical + ss.size.setWidth 32
      totalBytesQueued := st.totalBytesQueued + ss.size.setWidth 32 }, .ok)

/-- The segment that `DupStreamNode` makes. -/
def dupSegment (left : StreamSegment) : StreamSegment :=
  { left with payload := 0, ts := 0, urgOffset := 0, buffered := false }

/-! ### Overlaps -/

/-- What is left of an overlap with the segment to the left, in `StreamQueue`: where the new data start,
that segment, the copy of it that is put behind it, and what `seg_bytes_logical` loses. -/
structure LeftOverlap where
  seq : Seq
  left : StreamSegment
  right : Option StreamSegment
  logical : U32

/-- The left overlaps of `StreamQueue`, by the policy; `none` where the new data are dropped. -/
def leftOverlap (policy : ReassemblyPolicy) (len : U16) (seqEnd seq : Seq) (left : StreamSegment) :
    Option LeftOverlap :=
  let overlap := left.fin - seq
  let trimmed := { left with size := left.size - overlap.setWidth 16 }
  let seqLen := seq + len.setWidth 32
  match policy with
  | .first | .linux | .bsd | .windows | .windows2k3 | .vista | .hpux10 | .irix | .oldLinux | .macos =>
    if seqLeq seqEnd (seq + overlap) then none else some ⟨seq + overlap, left, none, 0⟩
  | .solaris | .hpux11 =>
    if seqLt left.seq seq && seqGeq left.fin seqLen then
      if seqLeq seqEnd (seq + overlap) then none else some ⟨seq + overlap, trimmed, none, overlap⟩
    else some ⟨seq, trimmed, none, overlap⟩
  | .last =>
    if seqLt left.seq seq && seqGt left.fin seqLen then
      let cut := seqLen - left.seq
      let right := dupSegment left
      some ⟨seq, trimmed, some { right with
        seq := seqLen
        size := right.size - cut.setWidth 16
        payload := right.payload + cut.toNat }, overlap + cut⟩
    else some ⟨seq, trimmed, none, overlap⟩

/-- What `StreamQueue` does about an overlap with the segment to the right. -/
inductive RightOverlap
  | trimOld (right : StreamSegment) (overlap : U32)
  | passOld (seq : Seq)
  | truncNew (trunc : U32)
  | retransmission
  | dropOld
  | keepOld
  | anomaly
  | again

/-- A segment that is queued is the one that has come. -/
def isRetransmission (right : StreamSegment) (p : Packet) : Bool :=
  seqEq (right.seq - BitVec.ofNat 32 right.payload) p.seq && right.origDsize = p.dsize &&
    right.data.take p.data.length = p.data

/-- A partial right overlap. -/
def rightPartial (policy : ReassemblyPolicy) (seq : Seq) (overlap : U32) (right : StreamSegment) :
    RightOverlap :=
  match policy with
  | .last | .linux | .oldLinux | .bsd | .windows | .windows2k3 | .irix | .hpux10 | .macos =>
    if seqEq right.seq seq && policy ≠ .last then .passOld (seq + (right.fin - seq))
    else
      .trimOld { right with
        seq := right.seq + overlap
        payload := right.payload + overlap.toNat
        size := right.size - overlap.setWidth 16 } overlap
  | .first | .vista | .solaris | .hpux11 => .truncNew overlap

/-- A full right overlap. -/
def rightFull (policy : ReassemblyPolicy) (len : U16) (seqEnd seq : Seq) (left : Option StreamSegment)
    (right : StreamSegment) : RightOverlap :=
  match policy with
  | .bsd | .linux | .windows | .windows2k3 | .hpux10 | .irix | .macos =>
    if seqGeq seqEnd right.fin && seqLt seq right.seq then .dropOld
    else
      match policy with
      | .windows | .windows2k3 | .bsd | .macos => .keepOld
      | _ => if seqGt seqEnd right.fin && seqEq seq right.seq then .dropOld else .keepOld
  | .first | .vista => .keepOld
  | .hpux11 | .solaris =>
    if seqEq right.seq seq && right.size = len && left.any fun left => !seqEq left.fin seq then
      if seqLeq (seqEnd - (seqEnd - right.seq)) seq then .anomaly else .again
    else .dropOld
  | .oldLinux | .last => .dropOld

/-- The right overlaps of `StreamQueue`, by the policy. -/
def rightOverlap (policy : ReassemblyPolicy) (p : Packet) (seqEnd seq : Seq)
    (left : Option StreamSegment) (right : StreamSegment) : RightOverlap :=
  let overlap := seqEnd - right.seq
  if overlap.toInt < right.size.toNat then rightPartial policy seq overlap right
  else if isRetransmission right p then .retransmission
  else rightFull policy p.dsize seqEnd seq left right

/-! ### Data of the packet that `ips_data` replaces -/

/-- `memcpy` to an offset of the payload; what runs over its end is no part of it. -/
def patch (data : List Byte) (offset : ℕ) (bytes : List Byte) : List Byte :=
  (data.take offset ++ bytes ++ data.drop (offset + bytes.length)).take data.length

/-- The bytes of a segment from an offset on. -/
def StreamSegment.bytesAt (ss : StreamSegment) (offset length : ℕ) : List Byte :=
  (ss.data.drop (ss.payload + offset)).take length

/-- A left overlap. -/
def patchLeft (p : Packet) (left : StreamSegment) : Packet :=
  let offset := (p.seq - left.seq).toNat
  if seqLt left.seq p.seq && seqGt left.fin (p.seq + p.dsize.setWidth 32) then
    { p with data := patch p.data 0 (left.bytesAt offset p.dsize.toNat) }
  else if seqLt left.seq p.seq then
    { p with data := patch p.data 0 (left.bytesAt offset (left.fin - p.seq).toNat) }
  else p

/-- A right overlap of some length. -/
def patchRight (p : Packet) (right : StreamSegment) (length : ℕ) : Packet :=
  { p with data := patch p.data (right.seq - p.seq).toNat (right.bytesAt 0 length) }

/-! ### `StreamQueue` -/

/-- The search from the head of the list on, for the first segment that does not start in front of
`seq`. -/
def findFromHead (st : StreamTracker) (seq : Seq) :
    ℕ → Option Ptr → Option Ptr → Option (Option Ptr × Option Ptr)
  | 0, _, _ => none
  | _ + 1, left, none => some (left, none)
  | fuel + 1, left, some ss =>
    if seqGeq (st.segs ss).seq seq then some (left, some ss)
    else findFromHead st seq fuel (some ss) (st.links.next ss)

/-- The search from the tail of the list on, for the last segment that starts in front of `seq`. -/
def findFromTail (st : StreamTracker) (seq : Seq) :
    ℕ → Option Ptr → Option Ptr → Option (Option Ptr × Option Ptr)
  | 0, _, _ => none
  | _ + 1, right, none => some (none, right)
  | fuel + 1, right, some ss =>
    if seqLt (st.segs ss).seq seq then some (some ss, right)
    else findFromTail st seq fuel (some ss) (st.links.prev ss)

/-- `dist_head` and `dist_tail`. -/
def seqDist (a b : Seq) : U32 := if seqGt a b then a - b else b - a

/-- The search starts at the head. -/
def headIsNear (head tail : Option StreamSegment) (seq : Seq) : Bool :=
  match head, tail with
  | some head, some tail => seqLeq (seqDist seq head.seq) (seqDist seq tail.seq)
  | _, _ => true

/-- The loop over right overlaps ends: it returns, or the rest of the new data is added, or not. -/
inductive RightExit
  | ret (st : StreamTracker)
  | add (st : StreamTracker) (p : Packet) (seq : Seq) (left : Option Ptr) (trunc : U32)
  | skip (st : StreamTracker)

/-- An overlap is counted. -/
def StreamTracker.countOverlap (st : StreamTracker) : StreamTracker :=
  { st with overlapCount := st.overlapCount + 1 }

/-- The loop over right overlaps. -/
def rightLoop (ipsData : Bool) (policy : ReassemblyPolicy) (seqEnd : Seq) :
    ℕ → StreamTracker → Packet → Seq → Option Ptr → Option Ptr → Option RightExit
  | 0, _, _, _, _, _ => none
  | _ + 1, st, p, seq, left, none => some (.add st p seq left 0)
  | fuel + 1, st, p, seq, left, some right =>
    let ss := st.segs right
    if seqLt ss.seq seqEnd then
      match rightOverlap policy p seqEnd seq (left.map st.segs) ss with
      | .trimOld ss' overlap =>
        some (.add { st.countOverlap.setSeg right ss' with
          segBytesLogical := st.segBytesLogical - overlap
          totalBytesQueued := st.totalBytesQueued - overlap } p seq left 0)
      | .passOld seq => some (.add st.countOverlap p seq left 0)
      | .truncNew trunc =>
        let length := p.seq + p.dsize.setWidth 32 - ss.seq
        some (.add st.countOverlap (if ipsData then patchRight p ss length.toNat else p) seq left trunc)
      | .retransmission => some (.skip st)
      | .dropOld =>
        let st' := (seglistDeleteNode st.countOverlap right 0).1
        rightLoop ipsData policy seqEnd fuel st' p seq left (st.links.next right)
      | .keepOld =>
        let p := if ipsData then patchRight p ss ss.size.toNat else p
        if seqEq ss.seq seq then
          let seq := seq + ss.size.setWidth 32
          if seqEq seq seqEnd then some (.ret st.countOverlap)
          else
            rightLoop ipsData policy seqEnd fuel st.countOverlap p seq (some right)
              (st.links.next right)
        else
          match addStreamNode st.countOverlap p p.dsize (seq - p.seq) (seqEnd - ss.seq) seq left with
          | (st, .anomaly) => some (.ret st)
          | (st, .ok) =>
            rightLoop ipsData policy seqEnd fuel st p ss.fin (some right) (st.links.next right)
      | .anomaly => some (.ret st.countOverlap)
      | .again => rightLoop ipsData policy seqEnd fuel st.countOverlap p seq left (some right)
    else some (.add st p seq left 0)

/-- The end of `StreamQueue`, from the right overlaps on. -/
def queueRight (fuel : ℕ) (ipsData : Bool) (policy : ReassemblyPolicy) (st : StreamTracker) (p : Packet)
    (seq : Seq) (left right : Option Ptr) : Option (StreamTracker × InsertResult) := do
  match ← rightLoop ipsData policy p.endSeq fuel st p seq left right with
  | .ret st => return (st, .anomaly)
  | .add st p seq left trunc => return addStreamNode st p p.dsize (seq - p.seq) trunc seq left
  | .skip st => return (st, .ok)

/-- `StreamQueue` behind the search, with a segment to the left. -/
def queueLeft (fuel : ℕ) (ipsData : Bool) (policy : ReassemblyPolicy) (st : StreamTracker) (p : Packet)
    (l : Ptr) (right : Option Ptr) : Option (StreamTracker × InsertResult) :=
  let ss := st.segs l
  if 0 < (ss.fin - p.seq).toInt then
    let st := st.countOverlap
    let p := if ipsData then patchLeft p ss else p
    match leftOverlap policy p.dsize p.endSeq p.seq ss with
    | none => some (st, .anomaly)
    | some o =>
      let st := { st.setSeg l o.left with segBytesLogical := st.segBytesLogical - o.logical }
      let (st, right) := match o.right with
        | none => (st, right)
        | some ss => (addSegment st (some l) ss, some st.fresh)
      if seqLeq p.endSeq o.seq then some (st, .anomaly)
      else queueRight fuel ipsData policy st p o.seq (some l) right
  else queueRight fuel ipsData policy st p p.seq (some l) right

/-- The search for where the segment goes. -/
def findNeighbours (fuel : ℕ) (st : StreamTracker) (seq : Seq) : Option (Option Ptr × Option Ptr) :=
  if headIsNear (st.seglist.map st.segs) (st.seglistTail.map st.segs) seq then
    findFromHead st seq fuel none st.seglist
  else findFromTail st seq fuel none st.seglistTail

/-- `IgnoreLargePkt`. -/
def ignoreLargePkt (cfg : TcpConfig) (st : StreamTracker) (p : Packet) : Bool :=
  st.flushPolicy = .footprint && cfg.performance &&
    (st.flushPt * 2 < p.dsize.setWidth 32 && st.segCount = 0)

/-- The reassembly policy of `StreamQueue`. -/
def effectivePolicy (cfg : TcpConfig) (st : StreamTracker) : ReassemblyPolicy :=
  if cfg.ipsData then .first else st.reassemblyPolicy

/-- `StreamQueue`. -/
def streamQueue (fuel : ℕ) (cfg : TcpConfig) (st : StreamTracker) (p : Packet) :
    Option (StreamTracker × InsertResult) :=
  if ignoreLargePkt cfg st p then some (st, .ok)
  else if st.seglistTail.any fun tail => seqEq p.seq (st.segs tail).fin then
    some (addStreamNode st p p.dsize 0 0 p.seq st.seglistTail)
  else do
    let (left, right) ← findNeighbours fuel st p.seq
    match left with
    | none => queueRight fuel cfg.ipsData (effectivePolicy cfg st) st p p.seq none right
    | some l => queueLeft fuel cfg.ipsData (effectivePolicy cfg st) st p l right

/-! ### What a tracker queues -/

/-- `NewQueue`. -/
def newQueue (cfg : TcpConfig) (st : StreamTracker) (p : Packet) : StreamTracker :=
  if st.flushPolicy ≠ .ignore then
    if ignoreLargePkt cfg st p then st
    else
      let seq := if p.syn then p.seq + 1 else p.seq
      if seqGt st.rWinBase seq then
        let overlap := st.rWinBase - p.seq
        if p.dsize.setWidth 32 ≤ overlap then st
        else (addStreamNode st p p.dsize overlap 0 (p.seq + overlap) none).1
      else (addStreamNode st p p.dsize 0 0 p.seq none).1
  else st

/-- The end of `ProcessTcpStream`, where a segment is queued. -/
def processTcpStream (fuel : ℕ) (cfg : TcpConfig) (st : StreamTracker) (p : Packet) :
    Option StreamTracker :=
  if st.segCount ≠ 0 then
    if st.flushPolicy = .ignore then some st
    else if seqGt st.rWinBase p.seq then
      let offset := st.rWinBase - p.seq
      if offset < p.dsize.setWidth 32 then
        (streamQueue fuel cfg st
          { p with seq := p.seq + offset, data := p.data.drop offset.toNat }).map Prod.fst
      else some st
    else (streamQueue fuel cfg st p).map Prod.fst
  else some (newQueue cfg st p)

/-- An acknowledgement, as `UpdateSsn` takes it. -/
def ackWindow (st : StreamTracker) (ack : Seq) : StreamTracker :=
  if seqGt ack st.rWinBase then { st with rWinBase := ack } else st

end Snort.Stream5
