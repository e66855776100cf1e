import Snort.Lib.CInt

/-!
# Frag3: inserting a fragment into a tracker

The defragmentation core of `spp_frag3.c`: `Frag3NewTracker`, `Frag3CheckFirstLast`,
`AddFragNode`, `DupFragNode`, `Frag3Insert`, `Frag3IsComplete` and the copy loop of
`Frag3Rebuild`.

* A fraglist is a `List Frag3Frag`.  While `Frag3Insert` works on it, the list is held as a
  `Walk`: the nodes up to the pointer `left` (nearest first), the nodes it has linked between
  `left` and `right`, and the nodes from the pointer `right` on.
* A `data` pointer is its distance from the start `fptr` of the node's own buffer.
* Local variables have the widths of the C declarations: an expression is computed in `ℤ` and
  reduced by `u16`, `u32`, `i16` where it is stored.
* Events and statistics counters are left out: nothing below reads them.
-/

namespace Snort.Frag3

open CInt

/-- The target-based policies `FRAG_POLICY_*`. -/
inductive FragPolicy
  | first
  | linux
  | bsd
  | bsdRight
  | last
  | windows
  | solaris
  deriving DecidableEq

/-- A `struct timeval`. -/
structure Timeval where
  tvSec : ℤ
  tvUsec : ℤ

/-- What the decoder says about a fragment: the offset in units of eight bytes, the MF bit,
the time of capture and the payload, `ip_frag_len` bytes from `ip_frag_start`. -/
structure Packet where
  fragOffset : ℕ
  mf : Bool
  ipFragStart : List UInt8
  ts : Timeval := ⟨0, 0⟩

/-- `p->ip_frag_len`. -/
def Packet.ipFragLen (p : Packet) : ℕ := p.ipFragStart.length

/-- A fragment held in a tracker. -/
structure Frag3Frag where
  data : ℕ
  size : ℕ
  offset : ℕ
  fptr : List UInt8
  flen : ℕ
  ord : ℕ
  last : Bool
  deriving DecidableEq

/-- The engine context: `frag_timeout`, `overlap_limit`, `FRAG3_DETECT_ANOMALIES`. -/
structure Frag3Context where
  fragTimeout : ℤ := 60
  overlapLimit : ℕ := 0
  detectAnomalies : Bool := false

/-- The engine's surroundings during one call: the snap length, and for the node with a given
ordinal whether memory for it can be had (directly or after `Frag3Prune`). -/
structure Env where
  pktSnaplen : ℕ := 65535
  fragNode : ℕ → Bool := fun _ => true

/-- The tracker of one fragmented datagram. -/
structure FragTracker where
  gotFirst : Bool := false
  gotLast : Bool := false
  bad : Bool := false
  fragBytes : ℕ := 0
  calculatedSize : ℕ := 0
  fragTime : Timeval
  fraglist : List Frag3Frag := []
  ordinal : ℕ := 0
  fragPolicy : FragPolicy
  overlapCount : ℕ := 0

/-- Return values of `Frag3CheckFirstLast`. -/
inductive FirstLast
  | firstlastOk
  | lastDuplicate
  | lastOffsetAdjust
  deriving DecidableEq

/-- Return values of `Frag3Insert` (`FRAG_INSERT_*`). -/
inductive InsertRet
  | ok
  | failed
  | attack
  | anomaly
  | overlapLimit
  deriving DecidableEq

/-- `IP_MAXPACKET`. -/
def ipMaxpacket : ℕ := 65535

/-- `Frag3CheckFirstLast`: note the first and the last fragment, and the size the last one
announces. -/
def frag3CheckFirstLast (p : Packet) (ft : FragTracker) : FragTracker × FirstLast :=
  if p.mf ∧ p.fragOffset = 0 then
    ({ ft with gotFirst := true }, .firstlastOk)
  else if !p.mf ∧ p.fragOffset > 0 then
    let endOfThisFrag := u16 (p.fragOffset * 8 + p.ipFragLen)
    let retVal :=
      if ft.gotLast then
        if ft.calculatedSize > endOfThisFrag then .lastDuplicate
        else if ft.fragPolicy = .solaris then .lastOffsetAdjust
        else .firstlastOk
      else .firstlastOk
    if ft.calculatedSize < endOfThisFrag ∧ retVal ≠ .lastOffsetAdjust then
      ({ ft with gotLast := true, calculatedSize := endOfThisFrag }, retVal)
    else
      ({ ft with gotLast := true }, retVal)
  else
    (ft, .firstlastOk)

/-- `Frag3NewTracker`, once the hash table has given a node: the status and the tracker it
leaves.  Without memory for the fragment the tracker stays, empty; an overly large fragment
makes no tracker. -/
def frag3NewTracker (env : Env) (policy : FragPolicy) (p : Packet) : Option (Bool × FragTracker) :=
  let fragLength := p.ipFragLen
  if fragLength > env.pktSnaplen then none
  else
    let tmp : FragTracker := { fragTime := p.ts, fragPolicy := policy }
    if env.fragNode tmp.ordinal then
      let offset := u16 (p.fragOffset * 8)
      let fragEnd := u16 (offset + fragLength)
      -- the size of a fragment that is not the last is cut back to an eight byte boundary
      let size := if p.mf then u16 (fragEnd / 8 * 8 - offset) else fragLength
      let f : Frag3Frag :=
        { data := 0, size := size, offset := offset, fptr := p.ipFragStart, flen := fragLength,
          ord := tmp.ordinal, last := !p.mf }
      let tmp := { tmp with ordinal := tmp.ordinal + 1, fraglist := [f] }
      let tmp := (frag3CheckFirstLast p tmp).1
      some (true, { tmp with fragBytes := u32 (tmp.fragBytes + fragLength) })
    else
      some (false, tmp)

/-- The fraglist while `Frag3Insert` works on it, with the variables that change on the way.
`left` is the head of `before`, `right` the head of `rest`; the field `fraglist` of `ft` is not
used until `Walk.relink`. -/
structure Walk where
  ft : FragTracker
  before : List Frag3Frag
  mid : List Frag3Frag := []
  rest : List Frag3Frag
  fragOffset : ℕ
  slide : ℤ := 0
  trunc : ℤ := 0
  alertedOverlap : Bool := false

/-- The nodes of a walk in list order. -/
def Walk.nodes (w : Walk) : List Frag3Frag := w.before.reverse ++ w.mid ++ w.rest

/-- The tracker with the walked list put back. -/
def Walk.relink (w : Walk) : FragTracker := { w.ft with fraglist := w.nodes }

/-- The variables of `Frag3Insert` that are fixed before the list is walked. -/
structure Cut where
  origOffset : ℕ
  fragOffset : ℕ
  fragEnd : ℕ
  len : ℤ
  fragLength : ℤ
  lastfrag : Bool

/-- The end of a held fragment. -/
abbrev Frag3Frag.stop (n : Frag3Frag) : ℕ := n.offset + n.size

/-- `AddFragNode`: a node for what `slide` and `trunc` leave of the arriving fragment, linked
behind `left`. -/
def addFragNode (env : Env) (p : Packet) (c : Cut) (lastfrag : Bool) (w : Walk) :
    Except (InsertRet × Walk) (Frag3Frag × Walk) :=
  let newSize := i16 (c.len - u16 w.slide - u16 w.trunc)
  if newSize ≤ 0 then .error (.anomaly, w)
  else if env.fragNode w.ft.ordinal then
    let newfrag : Frag3Frag :=
      { data := u16 w.slide, size := newSize.toNat, offset := w.fragOffset,
        fptr := p.ipFragStart.take c.fragLength.toNat, flen := u16 c.fragLength,
        ord := w.ft.ordinal, last := lastfrag }
    .ok (newfrag,
      { w with
        mid := newfrag :: w.mid
        ft := { w.ft with ordinal := w.ft.ordinal + 1,
                          fragBytes := u32 (w.ft.fragBytes + newfrag.size) } })
  else .error (.failed, w)

/-- `DupFragNode`: a copy of `left`, linked behind it; the copy becomes `right`. -/
def dupFragNode (env : Env) (left : Frag3Frag) (w : Walk) :
    Except (InsertRet × Walk) (Frag3Frag × Walk) :=
  if env.fragNode w.ft.ordinal then
    let newfrag := { left with ord := w.ft.ordinal }
    .ok (newfrag,
      { w with ft := { w.ft with ordinal := w.ft.ordinal + 1,
                                 fragBytes := u32 (w.ft.fragBytes + newfrag.size) } })
  else .error (.failed, w)

/-- The teardrop test: a last fragment that overlaps and does not end where the datagram
does. -/
def teardrop (p : Packet) (c : Cut) (ft : FragTracker) : Bool :=
  (c.fragEnd < ft.calculatedSize ∨ (ft.gotLast ∧ c.fragEnd ≠ ft.calculatedSize)) ∧ !p.mf

/-- Mark the tracker `FRAG_BAD`. -/
def Walk.setBad (w : Walk) : Walk := { w with ft := { w.ft with bad := true } }

/-- `ft->frag_bytes -= n`. -/
def Walk.subBytes (w : Walk) (n : ℤ) : Walk :=
  { w with ft := { w.ft with fragBytes := u32 (w.ft.fragBytes - n) } }

/-- `ft->overlap_count++`. -/
def Walk.countOverlap (w : Walk) : Walk :=
  { w with ft := { w.ft with overlapCount := w.ft.overlapCount + 1 } }

/-- The full overlap is counted, at most once for a fragment, when anomalies are detected. -/
def Walk.alertOverlap (ctx : Frag3Context) (w : Walk) : Walk :=
  if !w.alertedOverlap ∧ ctx.detectAnomalies then
    { w.countOverlap with alertedOverlap := true }
  else w

/-- The label `left_overlap_last`: an emptied `left` is deleted. -/
def leftOverlapLast (left : Frag3Frag) (bs : List Frag3Frag) (w : Walk) : Walk :=
  if left.size = 0 then { w with before := bs } else { w with before := left :: bs }

/-- Left overlap under `FRAG_POLICY_LAST`: the held fragment is cut back, or split in two when
it reaches beyond the new one. -/
def truncLeft (env : Env) (c : Cut) (overlap : ℤ) (left : Frag3Frag) (bs : List Frag3Frag)
    (w : Walk) : Except (InsertRet × Walk) Walk :=
  if left.offset < w.fragOffset ∧ (left.stop : ℤ) > w.fragOffset + c.len then
    match dupFragNode env left w with
    | .error e => .error e
    | .ok (right, w) =>
      let left' := { left with size := u16 (left.size - i16 overlap) }
      let w := w.subBytes (i16 overlap)
      let cut := w.fragOffset + c.len - left.offset
      let right := { right with offset := u16 (w.fragOffset + c.len),
                                size := u16 (right.size - cut),
                                data := (right.data + cut).toNat }
      let w := { w.subBytes cut with rest := right :: w.rest }
      .ok (leftOverlapLast left' bs w)
  else
    let left' := { left with size := u16 (left.size - i16 overlap) }
    .ok (leftOverlapLast left' bs (w.subBytes (i16 overlap)))

/-- The new fragment moves behind `left`: `frag_offset += overlap; slide = overlap`. -/
def Walk.slideBy (w : Walk) (overlap : ℤ) : Walk :=
  { w with fragOffset := u16 (w.fragOffset + i16 overlap), slide := i16 overlap }

/-- The `switch` on a left-side overlap. -/
def leftSwitch (env : Env) (c : Cut) (overlap : ℤ) (left : Frag3Frag) (bs : List Frag3Frag)
    (w : Walk) : Except (InsertRet × Walk) Walk :=
  match w.ft.fragPolicy with
  | .linux | .first | .windows | .solaris | .bsd =>
    let w := w.slideBy overlap
    if c.fragEnd ≤ w.fragOffset then .error (.anomaly, w) else .ok w
  | .bsdRight =>
    if (left.stop : ℤ) ≥ w.fragOffset + c.len then
      .ok (leftOverlapLast left bs (w.slideBy overlap))
    else truncLeft env c overlap left bs w
  | .last => truncLeft env c overlap left bs w

/-- The left-side overlap step of `Frag3Insert`. -/
def leftOverlap (env : Env) (p : Packet) (c : Cut) (w : Walk) :
    Except (InsertRet × Walk) Walk :=
  match w.before with
  | [] => .ok w
  | left :: bs =>
    let overlap : ℤ := left.stop - w.fragOffset
    if overlap > 0 then
      let w := w.countOverlap
      if teardrop p c w.ft then .error (.attack, w.setBad)
      else
        match leftSwitch env c overlap left bs w with
        | .error e => .error e
        | .ok w => if c.fragEnd < w.fragOffset then .error (.anomaly, w) else .ok w
    else .ok w

/-- What a policy does with a held fragment that the new one covers. -/
inductive FullAction
  | dump
  | reject
  deriving DecidableEq

/-- The `switch` on a full right-side overlap. -/
def fullAction (policy : FragPolicy) (fragOffset fragEnd : ℕ) (right : Frag3Frag) : FullAction :=
  match policy with
  | .windows =>
    if fragEnd > right.stop ∧ fragOffset < right.offset then .dump else .reject
  | .solaris | .bsd =>
    if fragEnd > right.stop ∧ fragOffset < right.offset then .dump
    -- `goto right_overlap_last`
    else if fragEnd = right.stop ∧ fragOffset < right.offset then .dump
    else .reject
  | .first => .reject
  | .bsdRight | .last | .linux => .dump

/-- "Find the next gap that this one might fill in": step over the held fragments that follow
on each other from `currEnd`, as long as they start before `frag_end`. -/
def nextGap (fragEnd : ℕ) : ℕ → List Frag3Frag → List Frag3Frag → List Frag3Frag →
    ℕ × List Frag3Frag × List Frag3Frag × List Frag3Frag
  | currEnd, before, mid, [] => (currEnd, before, mid, [])
  | currEnd, before, mid, right :: next =>
    if currEnd = right.offset ∧ right.offset < fragEnd then
      nextGap fragEnd (u16 right.stop) (right :: (mid.reverse ++ before)) [] next
    else (currEnd, before, mid, right :: next)

/-- How the rejecting branch of the right-side loop goes on. -/
inductive ChunkNext
  | again
  | leave (addthis : Bool)

/-- The test `right && (right->offset < frag_end)`. -/
def startsBefore (fragEnd : ℕ) : List Frag3Frag → Bool
  | [] => false
  | right :: _ => decide (right.offset < fragEnd)

/-- A covered fragment is kept: the new one goes on behind it when both start at the same
place, else it is cut off before it. -/
def rejectTrim (c : Cut) (right : Frag3Frag) (next : List Frag3Frag) (w : Walk) : Walk :=
  if right.offset = w.fragOffset then
    let slide := i16 (right.stop - w.fragOffset)
    { w with slide := slide, fragOffset := u16 (w.fragOffset + slide),
             before := right :: (w.mid.reverse ++ w.before), mid := [], rest := next }
  else { w with trunc := i16 (c.fragEnd - right.offset) }

/-- After a chunk was linked: go on with the next gap, or leave the loop. -/
def afterChunk (c : Cut) (newfrag : Frag3Frag) (w : Walk) : ChunkNext × Walk :=
  let (currEnd, before, mid, rest) := nextGap c.fragEnd (u16 newfrag.stop) w.before w.mid w.rest
  let w := { w with before := before, mid := mid, rest := rest }
  if startsBefore c.fragEnd rest then
    let fragOffset := match before with
      | [] => c.origOffset
      | left :: _ => u16 left.stop
    (.again, { w with fragOffset := fragOffset, slide := i16 (fragOffset - c.origOffset),
                      trunc := 0 })
  else if currEnd < c.fragEnd then
    -- the C code reads `left` here; it is not `NULL`, as the walk has stepped over a node
    let slide := match before with
      | [] => w.slide
      | left :: _ => i16 (left.stop - w.fragOffset)
    (.leave true, { w with slide := slide, fragOffset := currEnd, trunc := 0 })
  else (.leave false, w)

/-- A covered fragment is kept and the new one is inserted in chunks around it. -/
def rejectOverlap (env : Env) (p : Packet) (c : Cut) (right : Frag3Frag) (next : List Frag3Frag)
    (w : Walk) : Except (InsertRet × Walk) (ChunkNext × Walk) :=
  let w := rejectTrim c right next w
  if (c.fragEnd : ℤ) - w.trunc ≤ w.fragOffset then .error (.anomaly, w)
  else
    match addFragNode env p c false w with
    | .error e => .error e
    | .ok (newfrag, w) => .ok (afterChunk c newfrag w)

/-- `right` loses its first `overlap` bytes; an emptied `right` is deleted. -/
def truncRight (right : Frag3Frag) (next : List Frag3Frag) (overlap : ℤ) (w : Walk) : Walk :=
  let right := { right with offset := u16 (right.offset + i16 overlap),
                            data := (right.data + i16 overlap).toNat,
                            size := u16 (right.size - i16 overlap) }
  let w := w.subBytes (i16 overlap)
  if right.size = 0 then { w with rest := next } else { w with rest := right :: next }

/-- A held fragment that the new one overlaps from the left but does not cover. -/
def partialOverlap (right : Frag3Frag) (next : List Frag3Frag) (overlap : ℤ) (w : Walk) : Walk :=
  match w.ft.fragPolicy with
  | .last | .linux => truncRight right next overlap w
  | .bsd =>
    if right.offset = w.fragOffset then
      let slide := i16 (right.stop - w.fragOffset)
      { w with slide := slide, fragOffset := u16 (w.fragOffset + slide) }
    else truncRight right next overlap w
  | .first | .windows | .solaris | .bsdRight => { w with trunc := i16 overlap }

/-- The right-side loop.  The flag of the result is `addthis`.  Each round either ends the loop
or moves `right`; the fuel bounds the rounds. -/
def rightLoop (env : Env) (ctx : Frag3Context) (p : Packet) (c : Cut) :
    ℕ → Walk → Except (InsertRet × Walk) (Bool × Walk)
  | 0, w => .ok (false, w)
  | fuel + 1, w =>
    match w.rest with
    | [] => .ok (true, w)
    | right :: next =>
      if right.offset < c.fragEnd then
        let w := { w with trunc := 0 }
        let overlap : ℤ := c.fragEnd - right.offset
        if overlap ≠ 0 ∧ teardrop p c w.ft then .error (.attack, w.setBad)
        else if overlap < right.size then
          .ok (true, partialOverlap right next overlap w.countOverlap)
        else
          let w := w.alertOverlap ctx
          match fullAction w.ft.fragPolicy w.fragOffset c.fragEnd right with
          | .dump => rightLoop env ctx p c fuel { w.subBytes right.size with rest := next }
          | .reject =>
            match rejectOverlap env p c right next w with
            | .error e => .error e
            | .ok (.again, w) => rightLoop env ctx p c fuel w
            | .ok (.leave addthis, w) => .ok (addthis, w)
      else .ok (true, w)

/-- Where the new fragment goes: the nodes before `frag_offset`, nearest first, and the rest. -/
def findPlace (fragOffset : ℕ) : List Frag3Frag → List Frag3Frag → List Frag3Frag × List Frag3Frag
  | before, [] => (before, [])
  | before, right :: rest =>
    if right.offset ≥ fragOffset then (before, right :: rest)
    else findPlace fragOffset (right :: before) rest

/-- The first part of `Frag3Insert`: offset, end and length of the new fragment, and the
refusals that need no look at the list. -/
def cutFragment (p : Packet) (firstLastOk : FirstLast) (ft : FragTracker) :
    Except (InsertRet × FragTracker) (Cut × FragTracker) :=
  let fragLength := i16 p.ipFragLen
  let origOffset := u16 (p.fragOffset * 8)
  let fragOffset := if firstLastOk = .lastOffsetAdjust then u16 ft.calculatedSize else origOffset
  let fragEnd := u16 (fragOffset + fragLength)
  let placed : Except (InsertRet × FragTracker) (Cut × FragTracker) :=
    if !p.mf then
      let ft :=
        if fragEnd > ft.calculatedSize ∧ firstLastOk = .lastOffsetAdjust then
          { ft with calculatedSize := fragEnd }
        else ft
      .ok (⟨origOffset, fragOffset, fragEnd, fragLength, fragLength, true⟩, ft)
    else
      -- a fragment that is not the last ends on an eight byte boundary
      let oldfragEnd := fragEnd
      let fragEnd := fragEnd / 8 * 8
      let len := i16 (fragLength - (oldfragEnd - fragEnd))
      let c : Cut := ⟨origOffset, fragOffset, fragEnd, len, fragLength, false⟩
      if fragEnd > ft.calculatedSize then
        if ft.gotLast then .error (.anomaly, ft)
        else .ok (c, { ft with calculatedSize := fragEnd })
      else .ok (c, ft)
  match placed with
  | .error e => .error e
  | .ok (c, ft) =>
    if c.fragEnd = c.fragOffset then .error (.anomaly, ft)
    else if ft.calculatedSize > ipMaxpacket then .error (.anomaly, { ft with bad := true })
    else .ok (c, ft)

/-- The end of `Frag3Insert`: the right-side overlaps, the overlap limit, and what is left of
the fragment. -/
def finishInsert (env : Env) (ctx : Frag3Context) (p : Packet) (c : Cut) (w : Walk) :
    InsertRet × Walk :=
  if p.ipFragLen > env.pktSnaplen then (.failed, w)
  else
    match rightLoop env ctx p c (2 * w.rest.length + 1) w with
    | .error e => e
    | .ok (addthis, w) =>
      if ctx.overlapLimit ≠ 0 ∧ w.ft.overlapCount ≥ ctx.overlapLimit then (.overlapLimit, w)
      else if addthis then
        match addFragNode env p c c.lastfrag w with
        | .error e => e
        | .ok (_, w) => (.ok, w)
      else (.ok, w)

/-- The list surgery of `Frag3Insert`, from finding the neighbours on. -/
def insertCut (env : Env) (ctx : Frag3Context) (p : Packet) (c : Cut) (ft : FragTracker) :
    InsertRet × Walk :=
  let (before, rest) := findPlace c.fragOffset [] ft.fraglist
  match leftOverlap env p c { ft := ft, before := before, rest := rest,
                              fragOffset := c.fragOffset } with
  | .error e => e
  | .ok w => finishInsert env ctx p c w

/-- `CheckTimeout`: whole seconds of the difference, after the borrow of `TIMERSUB`. -/
def checkTimeout (currentTime startTime : Timeval) (ctx : Frag3Context) : Bool :=
  let sec := currentTime.tvSec - startTime.tvSec
  let sec := if currentTime.tvUsec - startTime.tvUsec < 0 then sec - 1 else sec
  decide (sec ≥ ctx.fragTimeout)

/-- The tracker with which `Frag3Insert` goes on: emptied when it has timed out. -/
def frag3Expire (ctx : Frag3Context) (p : Packet) (ft : FragTracker) : FragTracker :=
  if checkTimeout p.ts ft.fragTime ctx then
    { fragTime := p.ts, fragPolicy := ft.fragPolicy, overlapCount := ft.overlapCount }
  else ft

/-- `Frag3Insert`. -/
def frag3Insert (env : Env) (ctx : Frag3Context) (p : Packet) (ft : FragTracker) :
    InsertRet × FragTracker :=
  let (ft, firstLastOk) := frag3CheckFirstLast p (frag3Expire ctx p ft)
  match cutFragment p firstLastOk ft with
  | .error e => e
  | .ok (c, ft) =>
    let (ret, w) := insertCut env ctx p c ft
    (ret, w.relink)

/-- `Frag3IsComplete`. -/
def frag3IsComplete (ft : FragTracker) : Bool :=
  ft.gotFirst && ft.gotLast &&
    (ft.fragBytes = ft.calculatedSize || ft.fragBytes > ft.calculatedSize)

/-- One `SafeMemcpy` of the rebuild: the node's window at the node's offset. -/
def copyFrag (buf : ℕ → Option UInt8) (f : Frag3Frag) : ℕ → Option UInt8 := fun x =>
  if f.offset ≤ x ∧ x < f.stop then f.fptr[f.data + (x - f.offset)]? else buf x

/-- The copy loop of `Frag3Rebuild`: a node beyond the calculated size is passed over, one that
does not fit the packet buffer ends the loop. -/
def rebuildLoop (calculatedSize maxDsize : ℕ) :
    List Frag3Frag → (ℕ → Option UInt8) → ℕ → Option UInt8
  | [], buf => buf
  | frag :: next, buf =>
    if frag.stop > calculatedSize then rebuildLoop calculatedSize maxDsize next buf
    else if frag.size ≠ 0 then
      if frag.stop > maxDsize then buf
      else rebuildLoop calculatedSize maxDsize next (copyFrag buf frag)
    else rebuildLoop calculatedSize maxDsize next buf

/-- The reassembly buffer that `Frag3Rebuild` leaves; `none` is a byte it has not written. -/
def frag3Rebuild (maxDsize : ℕ) (ft : FragTracker) : ℕ → Option UInt8 :=
  rebuildLoop (u16 ft.calculatedSize) maxDsize ft.fraglist fun _ => none

end Snort.Frag3
