import Snort.HiPaf.Model
import Snort.Stream5.Seq

/-!
# Protocol aware flushing: `stream5_paf.c`

`s5PafCheck` hands the bytes of a segment to a callback that looks for the ends of protocol data units,
and returns the number of queued bytes to flush.  There is one registered callback, so that the mask of
callbacks is one bit.  `flushPduIps` of `snort_stream5_tcp.c` goes through the queued segments of a
stream without gaps.  The counters of calls and bytes are left out.
-/

namespace Snort.Stream5

open HiPaf (PafStatus Byte)

/-- A variable of type `uint32_t`. -/
abbrev U32 := BitVec 32

/-- `PAF_Callback`, on the flags, the user data and the bytes; it need not write `*fp`. -/
abbrev PafCallback (σ : Type) := U32 → σ → List Byte → PafStatus × σ × Option U32

/-- `PAF_State`. -/
structure PafState (σ : Type) where
  user : σ
  seq : Seq
  pos : Seq
  fpt : U32
  tot : U32
  paf : PafStatus
  cbMask : Bool

/-- `PAF_Config`. -/
structure PafConfig where
  mfp : U32

/-- `FlushType`. -/
inductive FlushType
  | nop
  | sfp
  | paf
  | max
  deriving DecidableEq

/-- `PKT_PDU_HEAD`. -/
def pktPduHead : U32 := 0x100

/-- `PKT_PDU_TAIL`. -/
def pktPduTail : U32 := 0x200

variable {σ : Type}

/-- The end of `s5_paf_flush`, for the types that flush. -/
def flushAt (ps : PafState σ) (at' flags s5Len : U32) : U32 × PafState σ × U32 :=
  if at' = 0 ∨ s5Len = 0 then (0, ps, flags)
  else
    -- safety - prevent seq + at < seq
    let at' := if 0x7FFFFFFF < at' then 0x7FFFFFFF else at'
    let flags := if ps.tot = 0 then flags ||| pktPduHead else flags
    (at', { ps with tot := if flags &&& pktPduTail ≠ 0 then 0 else ps.tot + at' }, flags)

/-- `s5_paf_flush`; the last component is `*flags`. -/
def s5PafFlush (ps : PafState σ) (ft : FlushType) (flags s5Len : U32) : U32 × PafState σ × U32 :=
  let flags := flags &&& ~~~(pktPduHead ||| pktPduTail)
  match ft with
  | .nop => (0, ps, flags)
  | .sfp => (0, ps, 0)
  | .paf => flushAt ps ps.fpt (flags ||| pktPduTail) s5Len
  | .max => flushAt { ps with fpt := if s5Len < ps.fpt then ps.fpt - s5Len else 0 } s5Len flags s5Len

/-- The callback, and what it selects; the flag says that a point has been updated. -/
def runCallback (cb : PafCallback σ) (ps : PafState σ) (data : List Byte) (flags : U32) :
    PafState σ × Bool :=
  if ps.cbMask then
    let (paf, user, fp) := cb flags ps.user data
    let ps := { ps with user := user, fpt := fp.getD ps.fpt, paf := paf }
    if paf = .abort then ({ ps with cbMask := false }, true)
    else (ps, paf ≠ .search)
  else ({ ps with paf := .abort }, true)

/-- `s5_paf_callback`; the last component is `s5_idx`. -/
def s5PafCallback (cb : PafCallback σ) (ps : PafState σ) (data : List Byte)
    (flags s5Len s5Idx : U32) : Bool × PafState σ × U32 :=
  let (ps, update) := runCallback cb ps data flags
  if update then
    let ps := { ps with fpt := ps.fpt + s5Idx }
    if ps.fpt ≤ s5Len then (true, ps, ps.fpt) else (false, ps, s5Len)
  else (false, ps, s5Len)

/-- `s5_paf_eval`; the last components are `s5_idx` and `*ft`. -/
def s5PafEval (cfg : PafConfig) (cb : PafCallback σ) (ps : PafState σ) (flags fuzz : U32)
    (data : List Byte) (s5Len s5Idx : U32) : Bool × PafState σ × U32 × FlushType :=
  match ps.paf with
  | .search =>
    if s5Idx < s5Len then
      let (cont, ps, idx) := s5PafCallback cb ps data flags s5Len s5Idx
      (cont, ps, idx, .nop)
    else (false, ps, s5Idx, .nop)
  | .flush =>
    if ps.fpt ≤ s5Len then (true, { ps with paf := .search }, s5Idx, .paf)
    else if cfg.mfp + fuzz ≤ s5Len then (false, ps, s5Idx, .max)
    else (false, ps, s5Idx, .nop)
  | .skip =>
    if ps.fpt < s5Len then
      let delta := if s5Idx < ps.fpt then (ps.fpt - s5Idx).toNat else 0
      if data.length < delta then (false, ps, s5Idx, .nop)
      else
        let (cont, ps, idx) := s5PafCallback cb ps (data.drop delta) flags s5Len ps.fpt
        (cont, ps, idx, .nop)
    else (false, ps, s5Idx, .nop)
  | _ => (false, ps, s5Idx, .sfp)

/-- What `s5_paf_check` does with the outcome of a flush. -/
def flushed (r : U32 × PafState σ × U32) : U32 × PafState σ × U32 :=
  let (fp, ps, flags) := r
  (fp, { ps with pos := ps.pos + fp, seq := ps.pos + fp }, flags)

/-- The loop of `s5_paf_check`, with what follows it. -/
def checkLoop (cfg : PafConfig) (cb : PafCallback σ) (flags fuzz s5Len : U32) :
    ℕ → PafState σ → List Byte → U32 → Option (U32 × PafState σ × U32)
  | 0, _, _, _ => none
  | fuel + 1, ps, data, s5Idx =>
    let (cont, ps, idx, ft) := s5PafEval cfg cb ps flags fuzz data s5Len s5Idx
    if ft ≠ .nop then some (flushed (s5PafFlush ps ft flags s5Len))
    else if cont then
      let shift := if s5Idx < idx then (idx - s5Idx).toNat else 0
      checkLoop cfg cb flags fuzz s5Len fuel ps (data.drop shift) idx
    else if ps.paf ≠ .flush ∧ cfg.mfp + fuzz < s5Len then
      some (flushed (s5PafFlush ps .max flags s5Len))
    else some (0, ps, flags)

/-- `s5_paf_check` from where the new bytes are known. -/
def checkBytes (fuel : ℕ) (cfg : PafConfig) (cb : PafCallback σ) (ps : PafState σ)
    (data : List Byte) (total flags fuzz : U32) : Option (U32 × PafState σ × U32) :=
  let len := BitVec.ofNat 32 data.length
  checkLoop cfg cb flags fuzz total fuel { ps with seq := ps.seq + len } data (total - len)

/-- `s5_paf_check`: the number of bytes to flush, the state and `*flags`. -/
def s5PafCheck (fuel : ℕ) (cfg : PafConfig) (cb : PafCallback σ) (ps : PafState σ)
    (data : List Byte) (total : U32) (seq : Seq) (flags fuzz : U32) :
    Option (U32 × PafState σ × U32) :=
  let len := BitVec.ofNat 32 data.length
  if ps.paf = .start then
    checkBytes fuel cfg cb { ps with seq := seq, pos := seq, paf := .search } data total flags fuzz
  -- if seq jumped we have a gap, so abort paf
  else if seqGt seq ps.seq then some (0, ps, 0)
  else if seqLeq (seq + len) ps.seq then some (0, ps, flags)
  else if seqLt seq ps.seq then
    checkBytes fuel cfg cb ps (data.drop (ps.seq - seq).toNat) total flags fuzz
  else checkBytes fuel cfg cb ps data total flags fuzz

/-- `s5_paf_setup`, with a callback for the port. -/
def s5PafSetup (user : σ) : PafState σ := ⟨user, 0, 0, 0, 0, .start, true⟩

/-! ### The queue of a stream -/

/-- What is queued of a stream without gaps: the sequence number of the first byte and the payloads of
the segments that have not been flushed, the state of PAF, and `flush_mgr.flush_pt`, now and after each
of the flushes to come, where `UpdateFlushMgr` sets it anew. -/
structure PafQueue (σ : Type) where
  seq : Seq
  segs : List (List Byte)
  ps : PafState σ
  flushPt : ℕ → U32

/-- The loop of `flush_pdu_ips` from a segment on. -/
def flushPduLoop (fuel : ℕ) (cfg : PafConfig) (cb : PafCallback σ) (fuzz avail : U32) :
    U32 → Seq → List (List Byte) → PafState σ → U32 → Option (U32 × PafState σ × U32)
  | _, _, [], ps, flags => some (0, ps, flags)
  | total, seq, data :: segs, ps, flags =>
    if flags ≠ 0 ∧ total < avail then
      let size := BitVec.ofNat 32 data.length
      if ps.paf ≠ .start ∧ seqLeq (seq + size) ps.seq then
        flushPduLoop fuel cfg cb fuzz avail (total + size) (seq + size) segs ps flags
      else do
        let (flushPt, ps, flags) ← s5PafCheck fuel cfg cb ps data (total + size) seq flags fuzz
        if flushPt ≠ 0 then return (flushPt, ps, flags)
        else flushPduLoop fuel cfg cb fuzz avail (total + size) (seq + size) segs ps flags
    else some (0, ps, flags)

/-- `flush_pdu_ips`; without gaps `get_q_sequenced` is the number of queued bytes. -/
def flushPduIps (fuel : ℕ) (cfg : PafConfig) (cb : PafCallback σ) (q : PafQueue σ) (flags : U32) :
    Option (U32 × PafState σ × U32) :=
  flushPduLoop fuel cfg cb (q.flushPt 0) (BitVec.ofNat 32 q.segs.flatten.length) 0 q.seq q.segs q.ps
    flags

/-- The segments that are left when `n` bytes are flushed; the last one flushed is split. -/
def dropBytes : ℕ → List (List Byte) → List (List Byte)
  | _, [] => []
  | n, data :: segs =>
    if data.length ≤ n then dropBytes (n - data.length) segs else data.drop n :: segs

/-- The loop of `CheckFlushPolicyOnData` for a direction: the flush points with the flags of each, the
queue and the flags at the end. -/
def flushQueue (cfg : PafConfig) (cb : PafCallback σ) (dir : U32) :
    ℕ → PafQueue σ → Option (List (U32 × U32) × PafQueue σ × U32)
  | 0, _ => none
  | fuel + 1, q => do
    let (flushAmt, ps, flags) ← flushPduIps fuel cfg cb q dir
    if flushAmt ≠ 0 then
      let q' := ⟨q.seq + flushAmt, dropBytes flushAmt.toNat q.segs, ps, fun i => q.flushPt (i + 1)⟩
      let (points, r) ← flushQueue cfg cb dir fuel q'
      return ((flushAmt, flags) :: points, r)
    else return ([], { q with ps := ps }, flags)

/-- Segments that arrive in order, one batch after the other; when the flags are 0 PAF is given up. -/
def arrive (cfg : PafConfig) (cb : PafCallback σ) (dir : U32) (fuel : ℕ) :
    PafQueue σ → List (List (List Byte)) → Option (List (U32 × U32))
  | _, [] => some []
  | q, batch :: batches => do
    let (points, q, flags) ← flushQueue cfg cb dir fuel { q with segs := q.segs ++ batch }
    if flags = 0 then return points
    else return points ++ (← arrive cfg cb dir fuel q batches)

/-- Stream positions of flush points, from a position on. -/
def positions : ℕ → List (U32 × U32) → List (ℕ × U32)
  | _, [] => []
  | base, (amt, flags) :: points => (base + amt.toNat, flags) :: positions (base + amt.toNat) points

end Snort.Stream5
