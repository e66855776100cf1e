import Snort.Stream5.TcpModel

/-!
# Flushing and purging: `snort_stream5_tcp.c`

`FlushStream` copies the queued bytes up to a sequence number into the rebuilt packet, marks the segments
it has copied and cuts the last one; `purge_to_seq`, `purge_all` and `purge_flushed_ackd` take segments
out.  The flags of the rebuilt packet, time stamps and alerts are left out.
-/

namespace Snort.Stream5

open HiPaf (Byte)

/-- The loop of `SegsToFlush`. -/
def segsLoop (st : StreamTracker) : ℕ → Option Ptr → U32 → Option U32
  | 0, _, _ => none
  | _ + 1, none, n => some n
  | fuel + 1, some s, n =>
    let ss := st.segs s
    segsLoop st fuel (st.links.next s)
      (if !ss.buffered && seqLt ss.seq st.rWinBase then n + 1 else n)

/-- `SegsToFlush`; the flag is `Normalize_IsEnabled(snort_conf, NORM_TCP_IPS)`. -/
def segsToFlush (fuel : ℕ) (normalize : Bool) (st : StreamTracker) : Option U32 :=
  let n := if st.flushCount < st.segCount then st.segCount - st.flushCount else 0
  if n < 2 ∨ normalize then some n
  else segsLoop st fuel st.seglist 0

/-- `getSegmentFlushSize`. -/
def getSegmentFlushSize (pafActive : Bool) (ss : StreamSegment) (baseSeq toSeq : Seq)
    (flushBufSize : U32) : U32 :=
  let flushSize := ss.size.setWidth 32
  -- copy only till flush buffer gets full
  let flushSize :=
    if flushBufSize < ss.seq - baseSeq + flushSize then flushBufSize - (ss.seq - baseSeq) else flushSize
  -- copy only to flush point
  if pafActive ∧ seqGt (ss.seq + flushSize) toSeq then toSeq - ss.seq else flushSize

/-- What `FlushStream` works on: the tracker, what it has written to the flush buffer, its counts, and
`TF_MISSING_PKT` with `gap_seq`. -/
structure FlushState where
  st : StreamTracker
  flushbuf : List Byte
  bytesFlushed : U16
  bytesSkipped : U16
  missingPkt : Bool
  gapSeq : Seq

/-- `SafeMemcpy` of `n` bytes from an offset of the payload to the end of what is written. -/
def FlushState.write (f : FlushState) (size : U32) (ss : StreamSegment) (offset n : ℕ) : FlushState :=
  if 0 < n ∧ f.flushbuf.length + n ≤ size.toNat then
    { f with flushbuf := f.flushbuf ++ ss.bytesAt offset n }
  else f

/-- The check for a gap behind a segment. -/
def FlushState.checkGap (f : FlushState) (x : Ptr) (toSeq : Seq) : FlushState :=
  let ss := f.st.segs x
  match f.st.links.next x with
  | some next =>
    if ss.fin ≠ (f.st.segs next).seq then
      { f with missingPkt := true, gapSeq := (f.st.segs next).seq }
    else f
  | none => if ss.fin < toSeq then { f with missingPkt := true, gapSeq := toSeq } else f

/-- A segment is copied to the flush buffer, without the urgent byte it may start with. -/
def FlushState.copy (f : FlushState) (size : U32) (ss : StreamSegment) (bytesToCopy : U32) : FlushState :=
  if ss.urgOffset = 1 then
    let nonUrgentBytes :=
      if ss.urgOffset.setWidth 32 < bytesToCopy then bytesToCopy - ss.urgOffset.setWidth 32 else 0
    if nonUrgentBytes ≠ 0 then
      { f.write size ss ss.urgOffset.toNat nonUrgentBytes.toNat with
        bytesSkipped := f.bytesSkipped + ss.urgOffset }
    else f
  else f.write size ss 0 bytesToCopy.toNat

/-- A segment is copied in part: the tracker behind it. -/
def cutSegment (normalize : Bool) (st : StreamTracker) (x : Ptr) (toSeq : Seq) (bytesToCopy : U32) :
    StreamTracker :=
  let ss := st.segs x
  if normalize then
    let sr := dupSegment ss
    let st' := addSegment st (some x) sr
    let st' := { st' with flushCount := st'.flushCount + 1 }
    let st' := st'.setSeg x { ss with buffered := true, size := bytesToCopy.setWidth 16 }
    st'.setSeg st.fresh { sr with
      seq := toSeq
      size := sr.size - bytesToCopy.setWidth 16
      data := sr.data.drop (sr.payload + bytesToCopy.toNat)
      payload := 0 }
  else
    st.setSeg x { ss with
      seq := toSeq
      size := ss.size - bytesToCopy.setWidth 16
      payload := ss.payload + bytesToCopy.toNat }

/-- A segment is copied whole: the tracker behind it. -/
def markSegment (st : StreamTracker) (x : Ptr) : StreamTracker :=
  { st.setSeg x { st.segs x with buffered := true } with flushCount := st.flushCount + 1 }

/-- A round of the loop of `FlushStream`. -/
def FlushState.round (normalize : Bool) (toSeq : Seq) (flushBufSize : U32) (f : FlushState) (x : Ptr)
    (bytesToCopy : U32) : FlushState :=
  let ss := f.st.segs x
  let f := (f.checkGap x toSeq).copy flushBufSize ss bytesToCopy
  if bytesToCopy < ss.size.setWidth 32 then
    { f with
      st := cutSegment normalize f.st x toSeq bytesToCopy
      bytesFlushed := f.bytesFlushed + bytesToCopy.setWidth 16 }
  else
    { f with
      st := markSegment f.st x
      bytesFlushed := f.bytesFlushed + ss.size }

/-- The loop of `FlushStream`. -/
def flushLoop (normalize : Bool) (baseSeq toSeq : Seq) (flushBufSize : U32) :
    ℕ → FlushState → Option Ptr → Option FlushState
  | 0, _, _ => none
  | _ + 1, f, none => some f
  | fuel + 1, f, some x =>
    let ss := f.st.segs x
    if seqLt ss.seq toSeq then
      let bytesToCopy := getSegmentFlushSize f.st.pafActive ss baseSeq toSeq flushBufSize
      let f := f.round normalize toSeq flushBufSize x bytesToCopy
      if f.missingPkt then some f
      else if flushBufSize ≤ (f.st.segs x).seq - baseSeq + bytesToCopy then some f
      else flushLoop normalize baseSeq toSeq flushBufSize fuel f (f.st.links.next x)
    else some f

/-- The first segment that has not been flushed. -/
def skipBuffered (st : StreamTracker) : ℕ → Option Ptr → Option (Option Ptr)
  | 0, _ => none
  | _ + 1, none => some none
  | fuel + 1, some x =>
    if (st.segs x).buffered then skipBuffered st fuel (st.links.next x) else some (some x)

/-- `FlushStream`, where the flush buffer has `flushBufSize` bytes: the tracker, the bytes in the buffer
and the result. -/
def flushStream (fuel : ℕ) (normalize : Bool) (st : StreamTracker) (toSeq : Seq) (flushBufSize : U32) :
    Option (StreamTracker × List Byte × ℤ) := do
  let segs ← segsToFlush fuel normalize st
  if segs = 0 ∨ st.seglist = none ∨ st.seglistTail = none then return (st, [], -1)
  else
    -- skip over previously flushed segments
    match ← skipBuffered st fuel st.seglist with
    | none => return (st, [], 0)
    | some x =>
      let f ← flushLoop normalize (st.segs x).seq toSeq flushBufSize fuel
        ⟨st, [], 0, 0, false, 0⟩ (some x)
      return (f.st, f.flushbuf, (f.bytesFlushed.toNat : ℤ) - f.bytesSkipped.toNat)

/-! ### Purging -/

/-- The loop of `purge_to_seq`; with `purged_bytes`. -/
def purgeLoop (flushSeq : Seq) : ℕ → StreamTracker → Option Ptr → U32 → Option (StreamTracker × U32)
  | 0, _, _, _ => none
  | _ + 1, st, none, n => some (st, n)
  | fuel + 1, st, some x, n =>
    if seqLt (st.segs x).seq flushSeq then
      let (st', purged) := seglistDeleteNode st x flushSeq
      purgeLoop flushSeq fuel st' (st.links.next x) (n + purged)
    else some (st, n)

/-- `purge_to_seq`. -/
def purgeToSeq (fuel : ℕ) (st : StreamTracker) (flushSeq : Seq) : Option (StreamTracker × U32) := do
  if st.seglist = none then return (st, 0)
  else
    let (st, n) ← purgeLoop flushSeq fuel st st.seglist 0
    return ({ st with seglistTail := if st.seglist = none then none else st.seglistTail }, n)

/-- `purge_all`. -/
def purgeAll (st : StreamTracker) : StreamTracker :=
  { st with
    seglist := none
    seglistTail := none
    seglistNext := none
    segCount := 0
    flushCount := 0 }

/-- The loop of `purge_flushed_ackd`; with `seq`. -/
def flushedLoop (st : StreamTracker) : ℕ → Option Ptr → Seq → Option Seq
  | 0, _, _ => none
  | _ + 1, none, seq => some seq
  | fuel + 1, some x, seq =>
    let seg := st.segs x
    if seg.buffered then
      if seqGt seg.fin st.rWinBase then some seq
      else flushedLoop st fuel (st.links.next x) seg.fin
    else some seq

/-- `purge_flushed_ackd`. -/
def purgeFlushedAckd (fuel : ℕ) (st : StreamTracker) : Option (StreamTracker × U32) := do
  let seq ← flushedLoop st fuel st.seglist 0
  if seq ≠ 0 then purgeToSeq fuel st seq else return (st, 0)

end Snort.Stream5
