import Snort.Obfuscation.Payload

/-!
# The segments of a reassembled payload

`OB_API_ObfuscatePacketStreamSegments` walks through the segments that a payload has been reassembled
from.  It knows the offset of a segment only from the end of the segment before it, and steps back when
its sequence number is smaller than the one expected next.

* `recordOut`, `emitted`: what is handed over for each segment;
* `Delivered`: the segments of a payload;
* `emitted_eq`: what is handed over if no segment starts behind the end of the one before it, as the
  sequence numbers are compared;
* **`streamSegments_agree_iff`**: in this case, and only in this case, what is obfuscated in the segments
  agrees with the entries, whatever the entries are.
-/

namespace Snort.Obfuscation

open CInt Buffer

/-! ### What is handed over -/

/-- An output plugin that records what it is handed: a list for each segment (a packet header starts a
new one), the last one in front. -/
def recordOut : Callback (List (List Out)) := fun c outs =>
  some <|
    if c.pkth then [] :: outs
    else
      match outs with
      | [] => [c.out]
      | out :: outs => (out ++ c.out) :: outs

theorem runCalls_recordOut {calls : List Call} (h : ∀ c ∈ calls, c.Part) (out : List Out)
    (outs : List (List Out)) :
    runCalls recordOut calls (out :: outs) = some ((out ++ calls.flatMap Call.out) :: outs) := by
  induction calls generalizing out with
  | nil => simp [runCalls]
  | cons c calls ih =>
    have hc : recordOut c (out :: outs) = some ((out ++ c.out) :: outs) := by
      simp [recordOut, (h c List.mem_cons_self).pkth]
    rw [runCalls, List.foldlM_cons, hc]
    show runCalls recordOut calls ((out ++ c.out) :: outs) = _
    rw [ih (fun c hc => h c (List.mem_cons_of_mem _ hc)), List.flatMap_cons, List.append_assoc]

variable {P : Type*}

theorem logData_recordOut (payload : List UInt8) (n T o : ℕ) (out : List Out) (outs : List (List Out)) :
    logData recordOut payload n ⟨false, T, o, out :: outs⟩ =
      some ⟨false, u16 (T + n), u16 (o + n), (out ++ (dataCall payload o n).out) :: outs⟩ := rfl

theorem hideData_recordOut (size L T o : ℕ) (e : ObfuscationEntry P) (out : List Out)
    (outs : List (List Out)) :
    ∃ n : ℕ, hideData recordOut size e L ⟨false, T, o, out :: outs⟩ =
      some ⟨false, u16 (T + n), u16 (o + n), (out ++ (hideCall e n).out) :: outs⟩ := ⟨_, rfl⟩

variable [DecidableEq P] (Q : Qsort)

/-- What is handed over for the segments, in order. -/
def emitted (ob : ObfuscationStruct P) (p : Packet P) (segments : List Segment) :
    Option (List (List Out)) :=
  (obfuscatePacketStreamSegments Q ob p segments recordOut []).2.map List.reverse

/-- The offset of a segment in the stream, which starts at `base`. -/
def Segment.streamOffset (base : UInt32) (seg : Segment) : ℕ := (seg.seqNum - base).toNat

/-- A payload of `n` bytes, the stream from `base` on, has been delivered as these segments, listed by
their sequence numbers as the reassembly does. -/
structure Delivered (base : UInt32) (n : ℕ) (segments : List Segment) : Prop where
  size : n < 65536
  first : segments.head?.map Segment.seqNum = some base
  header : ∀ seg ∈ segments, seg.header ≠ []
  payload : ∀ seg ∈ segments, seg.payload ≠ []
  sorted : segments.Pairwise fun s t => s.streamOffset base ≤ t.streamOffset base
  within : ∀ seg ∈ segments, seg.streamOffset base + seg.payload.length ≤ n
  covered : ∀ k < n, ∃ seg ∈ segments,
    seg.streamOffset base ≤ k ∧ k < seg.streamOffset base + seg.payload.length

/-- No segment starts behind the end of the one before it, as 32-bit numbers compare. -/
def Seamless (segments : List Segment) : Prop :=
  segments.IsChain fun s t => t.seqNum ≤ s.seqNum + UInt32.ofNat s.payload.length

/-! ### One segment -/

section Segment

variable {packet : P} {ob : ObfuscationStruct P} {seg : Segment}

theorem obfuscateStreamSegmentsCallback_eq (hheader : seg.header ≠ [])
    (hlen : seg.payload.length < 65536) (cd : StreamCallbackData) (outs : List (List Out)) :
    obfuscateStreamSegmentsCallback ob recordOut packet seg (cd, outs) =
      (traverseObfuscationList ob recordOut packet (startSegment cd seg.seqNum).data false seg.payload
        seg.payload.length ([] :: outs)).map fun r =>
          ({ startSegment cd seg.seqNum with
              data := r.1, nextSeq := seg.seqNum + UInt32.ofNat seg.payload.length }, r.2) := by
  have hpos : 0 < seg.header.length := List.length_pos_iff.2 hheader
  have hu : u16 seg.header.length ≤ seg.header.length := by unfold u16; omega
  have hsize : u16 ((seg.header.length + seg.payload.length : ℕ) - (seg.header.length : ℕ)) =
      seg.payload.length := u16_of_eq (by push_cast; ring) hlen
  unfold obfuscateStreamSegmentsCallback
  simp only [hsize]
  rw [if_neg (by omega)]
  show (traverseObfuscationList ob recordOut packet (startSegment cd seg.seqNum).data false seg.payload
    seg.payload.length ([] :: outs)).bind _ = _
  cases traverseObfuscationList ob recordOut packet (startSegment cd seg.seqNum).data false seg.payload
    seg.payload.length ([] :: outs) with
  | none => rfl
  | some r => rfl

/-- A segment that is walked through from the offset `pos` on. -/
theorem segment_walk (hheader : seg.header ≠ []) (hpayload : seg.payload ≠ [])
    (hl : ∀ e ∈ ob.listed, e.p = packet → e.length ≠ 0) {cd : StreamCallbackData} {pos : ℕ}
    (hpos : (startSegment cd seg.seqNum).data.totalOffset = pos)
    (hend : pos + seg.payload.length < 65536)
    (hpassed : ∀ e ∈ mine packet (ob.listed.take (startSegment cd seg.seqNum).data.entryIndex),
      e.stop ≤ pos) (outs : List (List Out)) :
    ∃ i', obfuscateStreamSegmentsCallback ob recordOut packet seg (cd, outs) =
        some (⟨⟨i', pos + seg.payload.length⟩, seg.seqNum + UInt32.ofNat seg.payload.length,
            (startSegment cd seg.seqNum).lastEntryIndex⟩,
          readBuf (outAt (mine packet ob.listed) seg.payload pos) pos seg.payload.length :: outs) ∧
      ∀ e ∈ mine packet (ob.listed.take i'), e.stop ≤ pos + seg.payload.length := by
  obtain ⟨calls, i', hrun, hparts, hout, hpassed'⟩ :=
    traverseObfuscationList_calls ob hpayload hend hl hpassed
  refine ⟨i', ?_, hpassed'⟩
  have hdata : (startSegment cd seg.seqNum).data =
      ⟨(startSegment cd seg.seqNum).data.entryIndex, pos⟩ := by rw [← hpos]
  rw [obfuscateStreamSegmentsCallback_eq hheader (by omega), hdata, hrun, runCalls_recordOut hparts,
    hout]
  rfl

/-- The entries that end in front of the offset play no part, also where the offset wraps. -/
theorem traverseLoop_passed {σ : Type*} (callback : Callback σ) (payload : List UInt8) (size : ℕ)
    (t : Traverse σ) (l : List (ObfuscationEntry P))
    (h : ∀ e ∈ l, e.p = packet → e.length ≠ 0 ∧ e.stop ≤ t.totalOffset) :
    ∀ i, ∃ i', traverseLoop callback packet payload size l i t = some (i', t) := by
  induction l with
  | nil => exact fun i => ⟨i, rfl⟩
  | cons e l ih =>
    intro i
    obtain ⟨i', hi'⟩ := ih (fun e he => h e (List.mem_cons_of_mem _ he)) (i + 1)
    refine ⟨i', ?_⟩
    rw [traverseLoop]
    by_cases hp : e.p = packet
    · obtain ⟨hne, hstop⟩ := h e List.mem_cons_self hp
      have hpos : 0 < e.length.toNat := by
        refine Nat.pos_of_ne_zero fun h0 => hne (UInt16.toNat_inj.1 h0)
      rw [if_neg (not_not_intro hp)]
      simp only
      rw [if_pos ⟨hstop, by omega⟩]
      exact hi'
    · rw [if_pos hp]
      exact hi'

/-- A segment behind all entries is handed over as it is. -/
theorem segment_passed (hheader : seg.header ≠ []) (hpayload : seg.payload ≠ [])
    (hlen : seg.payload.length < 65536) {cd : StreamCallbackData}
    (h : ∀ e ∈ ob.listed, e.p = packet →
      e.length ≠ 0 ∧ e.stop ≤ (startSegment cd seg.seqNum).data.totalOffset)
    (outs : List (List Out)) :
    ∃ cd', obfuscateStreamSegmentsCallback ob recordOut packet seg (cd, outs) =
      some (cd', seg.payload.map .data :: outs) := by
  have hpos : 0 < seg.payload.length := List.length_pos_iff.2 hpayload
  have hn : u16 ((seg.payload.length : ℕ) - ((0 : ℕ) : ℤ)) = seg.payload.length :=
    u16_of_eq (by ring) hlen
  obtain ⟨i', hloop⟩ := traverseLoop_passed recordOut seg.payload seg.payload.length
    ⟨false, (startSegment cd seg.seqNum).data.totalOffset, 0, [] :: outs⟩
    (ob.listed.drop (startSegment cd seg.seqNum).data.entryIndex)
    (fun e he => h e (List.mem_of_mem_drop he)) (startSegment cd seg.seqNum).data.entryIndex
  rw [obfuscateStreamSegmentsCallback_eq hheader hlen, traverseObfuscationList, if_neg (by omega)]
  simp only [hloop, Option.bind_eq_bind, Option.bind_some, if_pos hpos, hn]
  simp [logData, recordOut, Call.out]

/-- One more list is recorded for every segment, whatever the state. -/
theorem traverseLoop_recordOut (payload : List UInt8) (size : ℕ) (outs : List (List Out))
    (l : List (ObfuscationEntry P)) :
    ∀ (i T o : ℕ) (out : List Out), ∃ i' T' o' out',
      traverseLoop recordOut packet payload size l i ⟨false, T, o, out :: outs⟩ =
        some (i', ⟨false, T', o', out' :: outs⟩) := by
  induction l with
  | nil => exact fun i T o out => ⟨i, T, o, out, rfl⟩
  | cons e l ih =>
    intro i T o out
    -- the end of every branch
    have hide : ∀ (L T o : ℕ) (out : List Out), ∃ i' T' o' out',
        ((hideData recordOut size e L ⟨false, T, o, out :: outs⟩).bind fun t =>
          if t.payloadOffset = size then some (i, t)
          else traverseLoop recordOut packet payload size l (i + 1) t) =
          some (i', ⟨false, T', o', out' :: outs⟩) := by
      intro L T o out
      obtain ⟨n, hn⟩ := hideData_recordOut size L T o e out outs
      rw [hn, Option.bind_some]
      split
      · exact ⟨_, _, _, _, rfl⟩
      · exact ih ..
    have data : ∀ n : ℕ, ∃ i' T' o' out',
        ((logData recordOut payload n ⟨false, T, o, out :: outs⟩).bind fun t =>
          if t.payloadOffset = size then some (i, t)
          else (hideData recordOut size e e.length.toNat t).bind fun t =>
            if t.payloadOffset = size then some (i, t)
            else traverseLoop recordOut packet payload size l (i + 1) t) =
          some (i', ⟨false, T', o', out' :: outs⟩) := by
      intro n
      rw [logData_recordOut, Option.bind_some]
      split
      · exact ⟨_, _, _, _, rfl⟩
      · exact hide ..
    rw [traverseLoop]
    split
    · exact ih ..
    · simp only
      split
      · exact ih ..
      · split
        · exact data _
        · exact hide ..

theorem segment_recordOut (hheader : seg.header ≠ []) (hpayload : seg.payload ≠ [])
    (hlen : seg.payload.length < 65536) (cd : StreamCallbackData) (outs : List (List Out)) :
    ∃ cd' out, obfuscateStreamSegmentsCallback ob recordOut packet seg (cd, outs) =
      some (cd', out :: outs) := by
  have hpos : 0 < seg.payload.length := List.length_pos_iff.2 hpayload
  obtain ⟨i', T', o', out', hloop⟩ := @traverseLoop_recordOut _ _ packet seg.payload
    seg.payload.length outs (ob.listed.drop (startSegment cd seg.seqNum).data.entryIndex)
    (startSegment cd seg.seqNum).data.entryIndex (startSegment cd seg.seqNum).data.totalOffset 0 []
  rw [obfuscateStreamSegmentsCallback_eq hheader hlen, traverseObfuscationList, if_neg (by omega)]
  simp only [hloop, Option.bind_eq_bind, Option.bind_some]
  split
  · exact ⟨_, _, rfl⟩
  · exact ⟨_, _, rfl⟩

end Segment

/-! ### The offsets -/

section Offset

variable {base : UInt32} {s t : Segment}

/-- Stepping back by the difference of the sequence numbers leads to the offset of the segment. -/
theorem stepBack (ht : t.streamOffset base < 65536) :
    u16 (((s.streamOffset base + s.payload.length : ℕ) : ℤ) -
      (u16 (s.seqNum + UInt32.ofNat s.payload.length - t.seqNum).toNat : ℕ)) = t.streamOffset base := by
  have h1 := s.seqNum.toNat_lt
  have h2 := t.seqNum.toNat_lt
  have h3 := base.toNat_lt
  unfold Segment.streamOffset at *
  rw [UInt32.toNat_sub] at ht ⊢
  rw [UInt32.toNat_sub, UInt32.toNat_sub, UInt32.toNat_add, UInt32.toNat_ofNat']
  unfold u16
  omega

theorem seqNum_eq_iff (hs : s.streamOffset base + s.payload.length < 65536)
    (ht : t.streamOffset base < 65536) :
    t.seqNum = s.seqNum + UInt32.ofNat s.payload.length ↔
      t.streamOffset base = s.streamOffset base + s.payload.length := by
  have h1 := s.seqNum.toNat_lt
  have h2 := t.seqNum.toNat_lt
  have h3 := base.toNat_lt
  rw [← UInt32.toNat_inj, UInt32.toNat_add, UInt32.toNat_ofNat']
  unfold Segment.streamOffset at *
  rw [UInt32.toNat_sub] at hs ht ⊢
  rw [UInt32.toNat_sub]
  omega

end Offset

/-! ### All segments -/

section Run

variable {packet : P} {ob : ObfuscationStruct P} {base : UInt32} {n : ℕ} {segments : List Segment}

variable (packet ob base) in
/-- What is handed over for a segment at its offset. -/
def segmentOut (seg : Segment) : List Out :=
  readBuf (outAt (mine packet ob.listed) seg.payload (seg.streamOffset base)) (seg.streamOffset base)
    seg.payload.length

variable (packet ob base) in
/-- The state behind the segment `seg`. -/
structure Behind (seg : Segment) (cd : StreamCallbackData) : Prop where
  total : cd.data.totalOffset = seg.streamOffset base + seg.payload.length
  nextSeq : cd.nextSeq = seg.seqNum + UInt32.ofNat seg.payload.length
  passed : ∀ e ∈ mine packet (ob.listed.take cd.data.entryIndex),
    e.stop ≤ seg.streamOffset base + seg.payload.length
  last : ∀ e ∈ mine packet (ob.listed.take cd.lastEntryIndex), e.stop ≤ seg.streamOffset base

/-- **One segment more**, if it does not start behind the end of the one before it. -/
theorem Behind.next {s t : Segment} {cd : StreamCallbackData} (h : Behind packet ob base s cd)
    (hl : ∀ e ∈ ob.listed, e.p = packet → e.length ≠ 0) (hheader : t.header ≠ [])
    (hpayload : t.payload ≠ []) (hs : s.streamOffset base + s.payload.length < 65536)
    (ht : t.streamOffset base + t.payload.length < 65536)
    (hle : s.streamOffset base ≤ t.streamOffset base)
    (hseam : t.seqNum ≤ s.seqNum + UInt32.ofNat s.payload.length) (outs : List (List Out)) :
    ∃ cd', obfuscateStreamSegmentsCallback ob recordOut packet t (cd, outs) =
      some (cd', segmentOut packet ob base t :: outs) ∧ Behind packet ob base t cd' := by
  have hstart : (startSegment cd t.seqNum).data.totalOffset = t.streamOffset base ∧
      (∀ e ∈ mine packet (ob.listed.take (startSegment cd t.seqNum).data.entryIndex),
        e.stop ≤ t.streamOffset base) ∧
      ∀ e ∈ mine packet (ob.listed.take (startSegment cd t.seqNum).lastEntryIndex),
        e.stop ≤ t.streamOffset base := by
    have hlast := fun e he => (h.last e he).trans hle
    unfold startSegment
    by_cases hlt : t.seqNum < cd.nextSeq
    · -- the segment overlaps: back to its offset
      rw [if_pos hlt, h.total, h.nextSeq]
      exact ⟨stepBack (by omega), hlast, hlast⟩
    · -- the segment follows on the one before it
      rw [if_neg hlt]
      have heq : t.streamOffset base = s.streamOffset base + s.payload.length := by
        rw [← seqNum_eq_iff hs (by omega), ← h.nextSeq]
        rw [← h.nextSeq, UInt32.le_iff_toNat_le] at hseam
        rw [UInt32.lt_iff_toNat_lt] at hlt
        exact UInt32.toNat_inj.1 (by omega)
      rw [heq]
      exact ⟨h.total, h.passed, h.passed⟩
  obtain ⟨hpos, hpassed, hlast⟩ := hstart
  obtain ⟨i', hrun, hpassed'⟩ := segment_walk hheader hpayload hl hpos ht hpassed outs
  exact ⟨_, hrun, rfl, rfl, hpassed', hlast⟩

/-- The first segment. -/
theorem behind_first {s : Segment} (hl : ∀ e ∈ ob.listed, e.p = packet → e.length ≠ 0)
    (hheader : s.header ≠ []) (hpayload : s.payload ≠ []) (hbase : s.seqNum = base)
    (hs : s.payload.length < 65536) :
    ∃ cd, obfuscateStreamSegmentsCallback ob recordOut packet s (⟨⟨0, 0⟩, 0, 0⟩, []) =
      some (cd, [segmentOut packet ob base s]) ∧ Behind packet ob base s cd := by
  have hoff : s.streamOffset base = 0 := by
    rw [Segment.streamOffset, hbase, UInt32.sub_self]
    rfl
  have hstart : startSegment ⟨⟨0, 0⟩, 0, 0⟩ s.seqNum = ⟨⟨0, 0⟩, 0, 0⟩ := by
    unfold startSegment
    rw [if_neg]
    exact UInt32.not_lt.2 UInt32.zero_le
  obtain ⟨i', hrun, hpassed'⟩ := @segment_walk _ _ packet ob s hheader hpayload hl ⟨⟨0, 0⟩, 0, 0⟩
    (s.streamOffset base) (by rw [hstart, hoff]) (by omega) (by rw [hstart]; simp) []
  refine ⟨_, hrun, rfl, rfl, hpassed', ?_⟩
  rw [hstart]
  simp

/-- The first segments of a payload. -/
theorem prefix_run (h : Delivered base n segments)
    (hl : ∀ e ∈ ob.listed, e.p = packet → e.length ≠ 0) (pre : List Segment) :
    ∀ t, pre ++ [t] <+: segments → Seamless (pre ++ [t]) →
      ∃ cd, (pre ++ [t]).foldlM
          (fun s seg => obfuscateStreamSegmentsCallback ob recordOut packet seg s)
          (⟨⟨0, 0⟩, 0, 0⟩, []) =
        some (cd, ((pre ++ [t]).map (segmentOut packet ob base)).reverse) ∧
        Behind packet ob base t cd := by
  have hsize := h.size
  induction pre using List.reverseRecOn with
  | nil =>
    rintro t ⟨rest, hrest⟩ -
    have hmem : t ∈ segments := hrest ▸ by simp
    have hwithin := h.within t hmem
    have hbase : t.seqNum = base := by
      have hfirst := h.first
      rw [← hrest] at hfirst
      simpa using hfirst
    obtain ⟨cd, hrun, hbehind⟩ := behind_first hl (h.header t hmem) (h.payload t hmem) hbase (by omega)
    refine ⟨cd, ?_, hbehind⟩
    rw [List.nil_append, List.foldlM_cons, hrun]
    rfl
  | append_singleton pre s ih =>
    intro t hpre hseam
    have hmem : ∀ x ∈ pre ++ [s] ++ [t], x ∈ segments := fun x hx => hpre.subset hx
    have hs := hmem s (by simp)
    have ht := hmem t (by simp)
    have hwithin := h.within s hs
    have hwithin' := h.within t ht
    have hseam' : Seamless (pre ++ [s]) ∧ t.seqNum ≤ s.seqNum + UInt32.ofNat s.payload.length := by
      rw [Seamless, List.append_assoc, List.singleton_append, List.isChain_append_cons_cons] at hseam
      exact ⟨hseam.1, hseam.2.1⟩
    have hle : s.streamOffset base ≤ t.streamOffset base := by
      have hsorted := h.sorted.sublist hpre.sublist
      rw [List.pairwise_append] at hsorted
      exact hsorted.2.2 s (by simp) t (by simp)
    obtain ⟨cd, hrun, hbehind⟩ := ih s ((List.prefix_append _ _).trans hpre) hseam'.1
    obtain ⟨cd', hrun', hbehind'⟩ := hbehind.next hl (h.header t ht) (h.payload t ht) (by omega)
      (by omega) hle hseam'.2 ((pre ++ [s]).map (segmentOut packet ob base)).reverse
    refine ⟨cd', ?_, hbehind'⟩
    rw [List.foldlM_append, hrun]
    simp only [Option.bind_eq_bind, Option.bind_some, List.foldlM_cons, hrun', List.foldlM_nil]
    simp

/-- Every segment is recorded, whatever the state. -/
theorem foldlM_recordOut (hok : ∀ seg ∈ segments, seg.header ≠ [] ∧ seg.payload ≠ [] ∧
      seg.payload.length < 65536) :
    ∀ (cd : StreamCallbackData) (outs : List (List Out)), ∃ cd' more, segments.foldlM
        (fun s seg => obfuscateStreamSegmentsCallback ob recordOut packet seg s) (cd, outs) =
      some (cd', more ++ outs) := by
  induction segments with
  | nil => exact fun cd outs => ⟨cd, [], rfl⟩
  | cons seg segments ih =>
    intro cd outs
    obtain ⟨hheader, hpayload, hlen⟩ := hok seg List.mem_cons_self
    obtain ⟨cd₁, out, hrun⟩ :=
      @segment_recordOut _ _ packet ob seg hheader hpayload hlen cd outs
    obtain ⟨cd₂, more, hrun'⟩ := ih (fun seg h => hok seg (List.mem_cons_of_mem _ h)) cd₁ (out :: outs)
    refine ⟨cd₂, more ++ [out], ?_⟩
    rw [List.foldlM_cons, hrun]
    simpa using hrun'

end Run

/-! ### Agreement -/

/-- What is handed over for a segment at the offset `off` is obfuscated exactly where an entry covers the
offset in the payload. -/
def Agrees (added : List (ObfuscationEntry P)) (p : P) (off : ℕ) (payload : List UInt8)
    (out : List Out) : Prop :=
  out.length = payload.length ∧ ∀ j < payload.length,
    ((∃ c, out[j]? = some (.hidden c)) ↔ ∃ e ∈ added, e.p = p ∧ e.Covers (off + j))

theorem agrees_segmentOut {s : State P} (h : Recorded s) {p : P} (hord : Ordered s.ob p)
    {base : UInt32} {seg : Segment} (hend : seg.streamOffset base + seg.payload.length < 65536) :
    Agrees s.added p (seg.streamOffset base) seg.payload
      (segmentOut p (sortObfuscationEntries Q s.ob) base seg) := by
  refine ⟨length_readBuf .., fun j hj => ?_⟩
  have hget : (segmentOut p (sortObfuscationEntries Q s.ob) base seg)[j]? =
      some (outAt (mine p (sortObfuscationEntries Q s.ob).listed) seg.payload (seg.streamOffset base)
        (seg.streamOffset base + j)) := by
    rw [segmentOut, readBuf, List.getElem?_map, List.getElem?_range hj]
    rfl
  obtain ⟨hcov, hnone⟩ := outAt_spec Q h hord seg.payload (seg.streamOffset base)
    (k := seg.streamOffset base + j) (by omega)
  rw [hget]
  constructor
  · rintro ⟨c, hc⟩
    by_contra hno
    rw [hnone fun e he hp hk => hno ⟨e, he, hp, hk⟩] at hc
    cases hc
  · intro hex
    obtain ⟨e, -, -, -, heq⟩ := hcov hex
    exact ⟨e.obChar, by rw [heq]⟩

/-- The entry that obfuscates the byte at the offset `off` and nothing else. -/
def oneByte (p : P) (off : ℕ) : Op P := .add p (UInt16.ofNat off) 1 0

theorem run_oneByte (p : P) (off : ℕ) (obfuscate : P → Bool) :
    (run Q (start ⟨false, fun _ => ⟨p, 0, 0, 0⟩, [], []⟩ obfuscate) [oneByte p off]).added =
        [⟨p, UInt16.ofNat off, 1, 0⟩] ∧
      (sortObfuscationEntries Q (run Q (start ⟨false, fun _ => ⟨p, 0, 0, 0⟩, [], []⟩ obfuscate)
        [oneByte p off]).ob).listed = [⟨p, UInt16.ofNat off, 1, 0⟩] ∧
      (run Q (start ⟨false, fun _ => ⟨p, 0, 0, 0⟩, [], []⟩ obfuscate) [oneByte p off]).ob.sorted =
        false := by
  have hadd : addObfuscationEntry (start ⟨false, fun _ => ⟨p, 0, 0, 0⟩, [], []⟩ obfuscate).ob p
      (UInt16.ofNat off) 1 0 =
      (appendEntry (start ⟨false, fun _ => ⟨p, 0, 0, 0⟩, [], []⟩ obfuscate).ob p (UInt16.ofNat off) 1 0,
        .success) := rfl
  have hrun : run Q (start ⟨false, fun _ => ⟨p, 0, 0, 0⟩, [], []⟩ obfuscate) [oneByte p off] =
      ⟨appendEntry (start ⟨false, fun _ => ⟨p, 0, 0, 0⟩, [], []⟩ obfuscate).ob p (UInt16.ofNat off) 1 0,
        Function.update obfuscate p true, [⟨p, UInt16.ofNat off, 1, 0⟩]⟩ := by
    show State.add _ p (UInt16.ofNat off) 1 0 = _
    rw [State.add_eq hadd]
    rfl
  rw [hrun]
  refine ⟨rfl, ?_, rfl⟩
  obtain ⟨hentries, -, hperm⟩ := sort_entries Q
    (appendEntry (start ⟨false, fun _ => ⟨p, 0, 0, 0⟩, [], []⟩ obfuscate).ob p (UInt16.ofNat off) 1 0)
  have hlist := List.perm_singleton.1 hperm
  rw [ObfuscationStruct.listed, hlist, hentries]
  rfl

theorem emitted_eq {ob : ObfuscationStruct P} {p : Packet P}
    (hreq : payloadObfuscationRequired ob p = true) (segments : List Segment) :
    emitted Q ob p segments = (segments.foldlM
      (fun s seg => obfuscateStreamSegmentsCallback (sortObfuscationEntries Q ob) recordOut p.addr seg s)
      (⟨⟨0, 0⟩, 0, 0⟩, [])).map fun r => r.2.reverse := by
  unfold emitted obfuscatePacketStreamSegments
  rw [hreq]
  simp only [Bool.not_true, Bool.false_eq_true, if_false, Option.bind_eq_bind]
  cases segments.foldlM (fun s seg => obfuscateStreamSegmentsCallback (sortObfuscationEntries Q ob)
    recordOut p.addr seg s) (⟨⟨0, 0⟩, 0, 0⟩, []) with
  | none => rfl
  | some r => rfl

/-- **A segment that starts behind the end of the one before it** is taken to start there: its first byte
is not obfuscated by the entry for this byte. -/
theorem Behind.miss {packet : P} {ob : ObfuscationStruct P} {base : UInt32} {s t : Segment}
    {cd : StreamCallbackData} (h : Behind packet ob base s cd) {c : UInt8}
    (hl : ob.listed = [⟨packet, UInt16.ofNat (t.streamOffset base), 1, c⟩]) (hheader : t.header ≠ [])
    (hpayload : t.payload ≠ []) (hs : s.streamOffset base + s.payload.length < 65536)
    (ht : t.streamOffset base + t.payload.length < 65536)
    (hgap : s.seqNum + UInt32.ofNat s.payload.length < t.seqNum) (outs : List (List Out)) :
    ∃ cd' out, obfuscateStreamSegmentsCallback ob recordOut packet t (cd, outs) =
      some (cd', out :: outs) ∧ ∃ b, out[0]? = some (.data b) := by
  have hpos : 0 < t.payload.length := List.length_pos_iff.2 hpayload
  have hlt : ¬t.seqNum < cd.nextSeq := by
    rw [h.nextSeq]
    rw [UInt32.lt_iff_toNat_lt] at hgap ⊢
    omega
  have hne : t.streamOffset base ≠ s.streamOffset base + s.payload.length := by
    intro heq
    rw [← seqNum_eq_iff hs (by omega)] at heq
    rw [heq, UInt32.lt_iff_toNat_lt] at hgap
    omega
  have hstart : startSegment cd t.seqNum = { cd with lastEntryIndex := cd.data.entryIndex } :=
    if_neg hlt
  have hoff : (UInt16.ofNat (t.streamOffset base)).toNat = t.streamOffset base := by
    rw [UInt16.toNat_ofNat']
    omega
  have hone : (1 : UInt16).toNat = 1 := rfl
  rcases Nat.lt_or_gt_of_ne hne with hbefore | hbehind
  · -- the entry ends in front of the offset that is assumed
    obtain ⟨cd', hrun⟩ := @segment_passed _ _ packet ob t hheader hpayload (by omega) cd
      (by
        rw [hl, hstart]
        intro e he _
        rw [List.mem_singleton.1 he]
        refine ⟨show (1 : UInt16) ≠ 0 by decide, ?_⟩
        rw [ObfuscationEntry.stop, hoff, hone, h.total]
        omega) outs
    refine ⟨cd', _, hrun, t.payload[0], ?_⟩
    rw [List.getElem?_map, List.getElem?_eq_getElem hpos]
    rfl
  · -- the entry starts behind it
    have hnz : ∀ e ∈ ob.listed, e.p = packet → e.length ≠ 0 := by
      rw [hl]
      intro e he _
      rw [List.mem_singleton.1 he]
      exact show (1 : UInt16) ≠ 0 by decide
    obtain ⟨i', hrun, -⟩ := @segment_walk _ _ packet ob t hheader hpayload hnz cd
      (s.streamOffset base + s.payload.length) (by rw [hstart]; exact h.total) (by omega)
      (by rw [hstart]; exact h.passed) outs
    refine ⟨_, _, hrun, t.payload.getD 0 0, ?_⟩
    rw [readBuf, List.getElem?_map, List.getElem?_range hpos, Option.map_some, outAt,
      Sweep.decider_eq_none, Nat.add_zero, Nat.sub_self]
    rw [hl]
    intro e he hcov
    rw [List.mem_singleton.1 (mem_mine.1 he).1] at hcov
    have hle : (UInt16.ofNat (t.streamOffset base)).toNat ≤ _ := hcov.1
    omega

/-- **The obfuscation of the segments agrees with the entries, whatever these are, if and only if no
segment starts behind the end of the one before it**, as the sequence numbers compare. -/
theorem streamSegments_agree_iff (p : P) (header payload : List UInt8) (hheader : header ≠ [])
    {base : UInt32} {n : ℕ} {segments : List Segment} (h : Delivered base n segments) :
    (∀ ob obfuscate ops, (∀ op ∈ ops, op.Sliced) →
      (∃ e ∈ (run Q (start ob obfuscate) ops).added, e.p = p) →
      Ordered (run Q (start ob obfuscate) ops).ob p →
      ∃ outs, emitted Q (run Q (start ob obfuscate) ops).ob
          ((run Q (start ob obfuscate) ops).packet p header payload) segments = some outs ∧
        outs.length = segments.length ∧
        ∀ (i : ℕ) (seg : Segment) (out : List Out), segments[i]? = some seg → outs[i]? = some out →
          Agrees (run Q (start ob obfuscate) ops).added p (seg.streamOffset base) seg.payload out) ↔
      Seamless segments := by
  have hsize := h.size
  have hok : ∀ seg ∈ segments, seg.header ≠ [] ∧ seg.payload ≠ [] ∧ seg.payload.length < 65536 :=
    fun seg hseg => ⟨h.header seg hseg, h.payload seg hseg, by have := h.within seg hseg; omega⟩
  constructor
  · intro hall
    suffices hpre : ∀ pre, pre <+: segments → Seamless pre from hpre segments List.prefix_rfl
    intro pre
    induction pre using List.reverseRecOn with
    | nil => exact fun _ => .nil
    | append_singleton pre t ih =>
      intro hpre
      have hseam := ih ((List.prefix_append _ _).trans hpre)
      rcases List.eq_nil_or_concat' pre with rfl | ⟨pre, s, rfl⟩
      · exact .singleton t
      · rw [Seamless, List.append_assoc, List.singleton_append, List.isChain_append_cons_cons]
        refine ⟨hseam, ?_, .singleton t⟩
        by_contra hgap
        rw [UInt32.not_le] at hgap
        obtain ⟨post, hpost⟩ := hpre
        have hs : s ∈ segments := hpost ▸ by simp
        have ht : t ∈ segments := hpost ▸ by simp
        have hws := h.within s hs
        have hwt := h.within t ht
        -- the entry for the first byte of the segment
        obtain ⟨hadded, hlisted, hsorted⟩ := run_oneByte Q p (t.streamOffset base) fun _ => false
        have hrec := recorded_run Q ⟨false, fun _ => ⟨p, 0, 0, 0⟩, [], []⟩ (fun _ => false)
          [oneByte p (t.streamOffset base)]
        obtain ⟨outs, hem, hlen, hagree⟩ := hall ⟨false, fun _ => ⟨p, 0, 0, 0⟩, [], []⟩ (fun _ => false)
          [oneByte p (t.streamOffset base)]
          (by simp [oneByte, Op.Sliced])
          ⟨_, by rw [hadded]; exact List.mem_singleton_self _, rfl⟩
          (fun hs => absurd (hsorted.symm.trans hs) (by simp))
        generalize run Q (start ⟨false, fun _ => ⟨p, 0, 0, 0⟩, [], []⟩ fun _ => false)
          [oneByte p (t.streamOffset base)] = st at *
        have hreq : payloadObfuscationRequired st.ob (st.packet p header payload) = true :=
          payloadObfuscationRequired_of_added hrec
            ⟨_, by rw [hadded]; exact List.mem_singleton_self _, rfl⟩ hheader
        have hnz : ∀ e ∈ (sortObfuscationEntries Q st.ob).listed, e.p = p → e.length ≠ 0 := by
          rw [hlisted]
          intro e he _
          rw [List.mem_singleton.1 he]
          exact show (1 : UInt16) ≠ 0 by decide
        obtain ⟨cd, hrun, hbehind⟩ := prefix_run h hnz pre s
          ⟨t :: post, by rw [← hpost]; simp⟩ hseam
        obtain ⟨cd', out, hstep, b, hb⟩ := hbehind.miss hlisted (h.header t ht) (h.payload t ht)
          (by omega) (by omega) hgap ((pre ++ [s]).map (segmentOut p (sortObfuscationEntries Q st.ob) base)).reverse
        obtain ⟨cd'', more, hrest⟩ := @foldlM_recordOut _ _ p (sortObfuscationEntries Q st.ob) post
          (fun seg hseg => hok seg (hpost ▸ by simp [hseg])) cd'
          (out :: ((pre ++ [s]).map (segmentOut p (sortObfuscationEntries Q st.ob) base)).reverse)
        have hfold : segments.foldlM
            (fun s seg => obfuscateStreamSegmentsCallback (sortObfuscationEntries Q st.ob) recordOut p
              seg s) (⟨⟨0, 0⟩, 0, 0⟩, []) =
            some (cd'', more ++ out ::
              ((pre ++ [s]).map (segmentOut p (sortObfuscationEntries Q st.ob) base)).reverse) := by
          rw [← hpost, List.foldlM_append, List.foldlM_append, hrun]
          simp only [Option.bind_eq_bind, Option.bind_some, List.foldlM_cons, List.foldlM_nil, hstep]
          exact hrest
        rw [emitted_eq Q hreq] at hem
        rw [show (st.packet p header payload).addr = p from rfl, hfold] at hem
        have houts : outs[pre.length + 1]? = some out := by
          rw [← Option.some.inj hem]
          simp
        have hseg : segments[pre.length + 1]? = some t := by
          rw [← hpost]
          simp
        obtain ⟨-, hj⟩ := hagree _ t out hseg houts
        obtain ⟨c, hc⟩ := (hj 0 (List.length_pos_iff.2 (h.payload t ht))).2
          ⟨_, by rw [hadded]; exact List.mem_singleton_self _, rfl, by
            rw [ObfuscationEntry.Covers, UInt16.toNat_ofNat']
            refine ⟨by omega, Or.inr ?_⟩
            show _ < _ + 1
            omega⟩
        rw [hb] at hc
        cases hc
  · intro hseam ob obfuscate ops hops hadded hord
    have hrec := recorded_run Q ob obfuscate ops
    have hne := @length_ne_zero_of_run _ Q _ ob obfuscate ops hops
    generalize run Q (start ob obfuscate) ops = st at *
    have hreq : payloadObfuscationRequired st.ob (st.packet p header payload) = true :=
      payloadObfuscationRequired_of_added hrec hadded hheader
    have hnz : ∀ e ∈ (sortObfuscationEntries Q st.ob).listed, e.p = p → e.length ≠ 0 :=
      fun e he _ => hne e (mem_added_of_listed Q hrec he)
    refine ⟨segments.map (segmentOut p (sortObfuscationEntries Q st.ob) base), ?_, by simp, ?_⟩
    · rw [emitted_eq Q hreq]
      rcases List.eq_nil_or_concat' segments with rfl | ⟨pre, t, rfl⟩
      · rfl
      · obtain ⟨cd, hrun, -⟩ := prefix_run h hnz pre t List.prefix_rfl hseam
        rw [show (st.packet p header payload).addr = p from rfl, hrun, Option.map_some,
          List.reverse_reverse]
    · intro i seg out hseg hout
      rw [List.getElem?_map, hseg] at hout
      rw [← Option.some.inj hout]
      have := h.within seg (List.mem_of_getElem? hseg)
      exact agrees_segmentOut Q hrec hord (by omega)

/-! ### A contained segment -/

/-- Twelve bytes: the first ten, two of them once more, and the last two. -/
def containedSegments : List Segment :=
  [⟨[0], [0, 1, 2, 3, 4, 5, 6, 7, 8, 9], 1000⟩, ⟨[0], [2, 3], 1002⟩, ⟨[0], [10, 11], 1010⟩]

/-- The entry for the byte at the offset 10, in a fresh list. -/
def tenthState : State ℕ :=
  run insertionQsort (start ⟨false, fun _ => ⟨0, 0, 0, 0⟩, [], []⟩ fun _ => false) [.add 0 10 1 88]

/-- The byte at the offset 10 is covered, but handed over as it is: the last segment is taken to start
at the offset 4. -/
theorem containedSegments_exposed :
    emitted insertionQsort tenthState.ob
        (tenthState.packet 0 [0] [0, 1, 2, 3, 4, 5, 6, 7, 8, 9, 10, 11]) containedSegments =
      some [[0, 1, 2, 3, 4, 5, 6, 7, 8, 9].map .data, [2, 3].map .data, [10, 11].map .data] ∧
    ¬Agrees tenthState.added 0 10 [10, 11] ([10, 11].map .data) := by
  have hadded : tenthState.added = [⟨0, 10, 1, 88⟩] := by decide +kernel
  refine ⟨by decide +kernel, fun ⟨_, h⟩ => ?_⟩
  obtain ⟨c, hc⟩ := (h 0 (by decide)).2 ⟨⟨0, 10, 1, 88⟩, by simp [hadded], rfl, by decide,
    Or.inr (by decide)⟩
  exact absurd hc (by simp)

/-- Two segments that overlap, and one behind them, where the sequence numbers wrap. -/
def overlapSegments : List Segment :=
  [⟨[0], [0, 1, 2, 3], 4294967290⟩, ⟨[0], [2, 3, 4, 5], 4294967292⟩, ⟨[0], [6], 0⟩]

theorem overlapSegments_delivered : Delivered 4294967290 7 overlapSegments where
  size := by decide
  first := rfl
  header := by simp [overlapSegments]
  payload := by simp [overlapSegments]
  sorted := by decide
  within := by decide
  covered := by decide

theorem streamSegments_agree_iff_overlap : Seamless overlapSegments ∧
    ∃ outs, emitted insertionQsort tenthState.ob
        (tenthState.packet 0 [0] [0, 1, 2, 3, 4, 5, 6]) overlapSegments = some outs ∧
      outs.length = 3 ∧
      ∀ (i : ℕ) (seg : Segment) (out : List Out), overlapSegments[i]? = some seg → outs[i]? = some out →
        Agrees tenthState.added 0 (seg.streamOffset 4294967290) seg.payload out := by
  have hseam : Seamless overlapSegments := by
    unfold Seamless overlapSegments
    decide
  refine ⟨hseam, ?_⟩
  apply (streamSegments_agree_iff insertionQsort 0 [0] [0, 1, 2, 3, 4, 5, 6] (by simp)
    overlapSegments_delivered).2 hseam
  · simp [Op.Sliced]
  · exact ⟨⟨0, 10, 1, 88⟩, by decide +kernel, rfl⟩
  · intro hsorted
    exact absurd hsorted (by decide +kernel)

end Snort.Obfuscation
