import Snort.Lib.CInt

/-!
# The obfuscation of packets

`obfuscation.c` collects the parts of a packet that must not be logged and hands the payload to an
output plugin in pieces, the hidden ones as a length and a character.

* `ObfuscationStruct`: the arrays of entries, with the pointers of the sorted array and of the entries
  of maximal length as indices;
* `addObfuscationEntry`, `sortObfuscationEntries`: what changes them;
* `traverseObfuscationList`: the walk through a payload;
* `getObfuscatedPayload`, `obfuscatePacket`, `obfuscatePacketStreamSegments`: what the output plugins
  call.

A packet is known by its address `P`.  The callback of the caller is a function of its arguments and of
its user data; `none` is a return value other than `OB_RET_SUCCESS`.
-/

namespace Snort.Obfuscation

open CInt

/-- `OB_LENGTH_MAX`. -/
def obLengthMax : UInt16 := 65535

/-- `OBFUSCATE_ENTRIES`. -/
def obfuscateEntries : ℕ := 512

/-- `OBFUSCATE_MAXLEN_ENTRIES`. -/
def obfuscateMaxlenEntries : ℕ := 8

/-- `OBFUSCATE_SLICE_ENTRIES`. -/
def obfuscateSliceEntries : ℕ := obfuscateEntries - obfuscateMaxlenEntries

/-- `ObRet`. -/
inductive ObRet
  | success
  | error
  | overflow
  deriving DecidableEq, Repr

structure ObfuscationEntry (P : Type*) where
  p : P
  offset : UInt16
  length : UInt16
  obChar : UInt8
  deriving DecidableEq, Repr

/-- The arrays hold pointers into `entries`; `num_entries` is the length of `sortEntries`, and
`num_maxlen_entries` that of `maxlenEntries`. -/
structure ObfuscationStruct (P : Type*) where
  sorted : Bool
  entries : ℕ → ObfuscationEntry P
  sortEntries : List ℕ
  maxlenEntries : List ℕ

/-- What is read of `Packet`: its address, the bytes from `pkt` to `data` and those from `data` on
(together `caplen`), and `PKT_PAYLOAD_OBFUSCATE`. -/
structure Packet (P : Type*) where
  addr : P
  header : List UInt8
  payload : List UInt8
  obfuscate : Bool
  deriving Repr

variable {P : Type*} [DecidableEq P]

/-! ### The entries -/

def ObfuscationStruct.numEntries (ob : ObfuscationStruct P) : ℕ := ob.sortEntries.length

def numObfuscateMaxLenEntries (ob : ObfuscationStruct P) : ℕ := ob.maxlenEntries.length

def numObfuscateSliceEntries (ob : ObfuscationStruct P) : ℕ :=
  ob.numEntries - numObfuscateMaxLenEntries ob

/-- `OB_API_ResetObfuscationEntries`. -/
def resetObfuscationEntries (ob : ObfuscationStruct P) : ObfuscationStruct P :=
  { ob with sorted := false, sortEntries := [], maxlenEntries := [] }

def obfuscationEntryOverflow (ob : ObfuscationStruct P) (length : UInt16) : ObRet :=
  if length = obLengthMax then
    if obfuscateMaxlenEntries ≤ numObfuscateMaxLenEntries ob then .overflow else .success
  else
    if obfuscateSliceEntries ≤ numObfuscateSliceEntries ob then .overflow else .success

/-- The entry of maximal length that is associated with the packet. -/
def findMaxlen (ob : ObfuscationStruct P) (p : P) : Option ℕ :=
  ob.maxlenEntries.find? fun i => (ob.entries i).p = p

/-- The end of `AddObfuscationEntry`: a new entry behind the others. -/
def appendEntry (ob : ObfuscationStruct P) (p : P) (offset length : UInt16) (obChar : UInt8) :
    ObfuscationStruct P where
  sorted := false
  entries := Function.update ob.entries ob.numEntries ⟨p, offset, length, obChar⟩
  sortEntries := ob.sortEntries ++ [ob.numEntries]
  maxlenEntries :=
    if length = obLengthMax then ob.maxlenEntries ++ [ob.numEntries] else ob.maxlenEntries

/-- The offset and the character of the entry `i` are replaced. -/
def lowerEntry (ob : ObfuscationStruct P) (i : ℕ) (offset : UInt16) (obChar : UInt8) :
    ObfuscationStruct P :=
  { ob with
    entries := Function.update ob.entries i
      { ob.entries i with offset := offset, obChar := obChar } }

def addObfuscationEntry (ob : ObfuscationStruct P) (p : P) (offset length : UInt16)
    (obChar : UInt8) : ObfuscationStruct P × ObRet :=
  match if length = obLengthMax then findMaxlen ob p else none with
  | some i =>
      -- `sorted` stays as it is
      if offset < (ob.entries i).offset then (lowerEntry ob i offset obChar, .success)
      else (ob, .success)
  | none =>
      if obfuscationEntryOverflow ob length ≠ .success then (ob, .overflow)
      else (appendEntry ob p offset length obChar, .success)

/-- `ObfuscationEntrySort`. -/
def obfuscationEntrySort (ob1 ob2 : ObfuscationEntry P) : ℤ :=
  if ob1.offset < ob2.offset then -1
  else if ob2.offset < ob1.offset then 1
  else if ob1.length < ob2.length then -1
  else if ob2.length < ob1.length then 1
  else 0

/-- `qsort` of an array by a comparison: any permutation that puts the elements in order, if the
comparison is that of an order.  Which one is left open by the C library. -/
structure Qsort where
  sort : (ℕ → ℕ → ℤ) → List ℕ → List ℕ
  perm : ∀ compar base, (sort compar base).Perm base
  sorted : ∀ compar base, (∀ a b, compar a b ≤ 0 ∨ compar b a ≤ 0) →
    (∀ a b c, compar a b ≤ 0 → compar b c ≤ 0 → compar a c ≤ 0) →
    (sort compar base).Pairwise fun a b => compar a b ≤ 0

variable (Q : Qsort)

def sortObfuscationEntries (ob : ObfuscationStruct P) : ObfuscationStruct P :=
  if ob.sorted then ob
  else { ob with
    sorted := true
    sortEntries := Q.sort (fun i j => obfuscationEntrySort (ob.entries i) (ob.entries j)) ob.sortEntries }

/-- `PayloadObfuscationRequired`. -/
def payloadObfuscationRequired (ob : ObfuscationStruct P) (p : Packet P) : Bool :=
  if p.header.length = 0 ∨ p.header.length + p.payload.length < u16 p.header.length then false
  else if !p.obfuscate ∨ ob.numEntries = 0 then false
  else true

/-! ### The walk through a payload -/

/-- The arguments of the callback: whether there is a packet header, the packet data (`NULL` for a part
to hide), the length and the character. -/
structure Call where
  pkth : Bool
  packetData : Option (List UInt8)
  length : ℕ
  obChar : UInt8
  deriving DecidableEq, Repr

/-- `ObfuscationCallback` with its user data. -/
abbrev Callback (σ : Type*) := Call → σ → Option σ

/-- What `ObfuscationCallbackData` keeps between the payloads. -/
structure CallbackData where
  entryIndex : ℕ
  totalOffset : ℕ
  deriving DecidableEq, Repr

/-- The local variables of `TraverseObfuscationList`, and the user data. -/
structure Traverse (σ : Type*) where
  pkthTmp : Bool
  totalOffset : ℕ
  payloadOffset : ℕ
  userData : σ

section Walk

variable {σ : Type*} (callback : Callback σ) (packet : P) (payload : List UInt8) (payloadSize : ℕ)

/-- A part that is not obfuscated. -/
def logData (length : ℕ) (t : Traverse σ) : Option (Traverse σ) := do
  let d ← callback ⟨t.pkthTmp, some (payload.drop t.payloadOffset), length, 0⟩ t.userData
  some ⟨false, u16 (t.totalOffset + length), u16 (t.payloadOffset + length), d⟩

/-- The part of an entry, of which `obLength` bytes are left. -/
def hideData (entry : ObfuscationEntry P) (obLength : ℕ) (t : Traverse σ) : Option (Traverse σ) := do
  let obLength :=
    if payloadSize < t.payloadOffset + obLength ∨ t.payloadOffset + obLength ≤ t.payloadOffset then
      u16 (payloadSize - t.payloadOffset)
    else obLength
  let d ← callback ⟨t.pkthTmp, none, obLength, entry.obChar⟩ t.userData
  some ⟨false, u16 (t.totalOffset + obLength), u16 (t.payloadOffset + obLength), d⟩

/-- The loop over the sorted entries from the index `i` on; it returns the index at which it ends. -/
def traverseLoop : List (ObfuscationEntry P) → ℕ → Traverse σ → Option (ℕ × Traverse σ)
  | [], i, t => some (i, t)
  | entry :: entries, i, t =>
    if entry.p ≠ packet then traverseLoop entries (i + 1) t
    else
      let obOffset := entry.offset.toNat
      let obLength := entry.length.toNat
      -- this part of the payload is obfuscated already
      if obOffset + obLength ≤ t.totalOffset ∧ obOffset < obOffset + obLength then
        traverseLoop entries (i + 1) t
      else if t.totalOffset < obOffset then do
        let length := u16 (obOffset - t.totalOffset)
        let length :=
          if (payloadSize : ℤ) - t.payloadOffset < length then u16 (payloadSize - t.payloadOffset)
          else length
        let t ← logData callback payload length t
        if t.payloadOffset = payloadSize then some (i, t)
        else do
          let t ← hideData callback payloadSize entry obLength t
          if t.payloadOffset = payloadSize then some (i, t) else traverseLoop entries (i + 1) t
      else do
        let obLength :=
          if obOffset < t.totalOffset then u16 (obLength - (t.totalOffset - obOffset)) else obLength
        let t ← hideData callback payloadSize entry obLength t
        if t.payloadOffset = payloadSize then some (i, t) else traverseLoop entries (i + 1) t

end Walk

/-- The entries behind the pointers of the sorted array. -/
def ObfuscationStruct.listed (ob : ObfuscationStruct P) : List (ObfuscationEntry P) :=
  ob.sortEntries.map ob.entries

/-- `payload` starts at `payload_data`; `pkth` is `NULL` or not. -/
def traverseObfuscationList {σ : Type*} (ob : ObfuscationStruct P) (callback : Callback σ) (packet : P)
    (data : CallbackData) (pkth : Bool) (payload : List UInt8) (payloadSize : ℕ) (userData : σ) :
    Option (CallbackData × σ) :=
  if payloadSize = 0 then none
  else do
    let (i, t) ← traverseLoop callback packet payload payloadSize (ob.listed.drop data.entryIndex)
      data.entryIndex ⟨pkth, data.totalOffset, 0, userData⟩
    if t.payloadOffset < payloadSize then do
      let t ← logData callback payload (u16 (payloadSize - t.payloadOffset)) t
      some (⟨i, t.totalOffset⟩, t.userData)
    else some (⟨i, t.totalOffset⟩, t.userData)

/-- `(ob_size_t)(caplen - (data - pkt))`. -/
def Packet.payloadSize (p : Packet P) : ℕ :=
  u16 ((p.header.length + p.payload.length : ℕ) - p.header.length)

/-! ### The calls of the output plugins -/

/-- `OB_API_AddObfuscationEntry`; the packet is flagged. -/
def obAddObfuscationEntry (ob : ObfuscationStruct P) (p : Packet P) (offset length : UInt16)
    (obChar : UInt8) : (ObfuscationStruct P × ObRet) × Packet P :=
  (addObfuscationEntry ob p.addr offset length obChar, { p with obfuscate := true })

/-- `OB_API_ObfuscatePacket`. -/
def obfuscatePacket {σ : Type*} (ob : ObfuscationStruct P) (p : Packet P) (callback : Callback σ)
    (userData : σ) : ObfuscationStruct P × Option σ :=
  if !payloadObfuscationRequired ob p then (ob, none)
  else
    let ob := sortObfuscationEntries Q ob
    (ob, do
      let d ← callback ⟨true, some (p.header ++ p.payload), u16 p.header.length, 0⟩ userData
      let (_, d) ← traverseObfuscationList ob callback p.addr ⟨0, 0⟩ false p.payload p.payloadSize d
      some d)

/-- `SafeMemcpy` and `SafeMemset` into the block `dst` at `off`: the first `n` bytes of `src`. -/
def safeMemcpy (dst : List UInt8) (off : ℕ) (src : List UInt8) (n : ℕ) : Option (List UInt8) :=
  if n < 1 ∨ dst.length < off + n then none
  else some (dst.take off ++ src.take n ++ dst.drop (off + n))

/-- The user data of `GetObfuscatedPayloadCallback`. -/
structure ObfuscatedPayload where
  payload : Option (List UInt8)
  payloadLen : ℕ
  payloadSize : ℕ
  deriving DecidableEq, Repr

/-- A larger block, with what has been written to the one before. -/
def growPayload (ob : ObfuscatedPayload) (length : ℕ) : Option ObfuscatedPayload := do
  let newSize := u16 (ob.payloadLen + length + 100)
  let tmp := List.replicate newSize 0
  let tmp ← match ob.payload with
    | some payload => safeMemcpy tmp 0 payload ob.payloadLen
    | none => some tmp
  some { ob with payload := some tmp, payloadSize := newSize }

/-- A block with room for `length` more bytes. -/
def reservePayload (ob : ObfuscatedPayload) (length : ℕ) : Option ObfuscatedPayload :=
  if ob.payloadSize < ob.payloadLen + length then growPayload ob length else some ob

def getObfuscatedPayloadCallback : Callback ObfuscatedPayload := fun call ob => do
  let ob ← reservePayload ob call.length
  let payload ← ob.payload
  let payload ← safeMemcpy payload ob.payloadLen
    (call.packetData.getD (List.replicate call.length call.obChar)) call.length
  some { ob with payload := some payload, payloadLen := u16 (ob.payloadLen + call.length) }

/-- `OB_API_GetObfuscatedPayload`: the first `*payload_len` bytes of `*payload`. -/
def getObfuscatedPayload (ob : ObfuscationStruct P) (p : Packet P) :
    ObfuscationStruct P × Option (List UInt8) :=
  if !payloadObfuscationRequired ob p then (ob, none)
  else
    let ob := sortObfuscationEntries Q ob
    (ob, do
      let (_, d) ← traverseObfuscationList ob getObfuscatedPayloadCallback p.addr ⟨0, 0⟩ false p.payload
        p.payloadSize ⟨none, 0, 0⟩
      some ((d.payload.getD []).take d.payloadLen))

/-! ### The segments of a stream -/

/-- A segment as `traverse_stream_segments` hands it over: its bytes from `pkt` to `payload` and from
there on, and its sequence number. -/
structure Segment where
  header : List UInt8
  payload : List UInt8
  seqNum : UInt32
  deriving DecidableEq, Repr

/-- `ObfuscationStreamCallbackData`. -/
structure StreamCallbackData where
  data : CallbackData
  nextSeq : UInt32
  lastEntryIndex : ℕ
  deriving DecidableEq, Repr

/-- Where the walk through a segment starts: at the entry of the last segment if it overlaps. -/
def startSegment (cd : StreamCallbackData) (seqNum : UInt32) : StreamCallbackData :=
  if seqNum < cd.nextSeq then
    { cd with data := ⟨cd.lastEntryIndex,
        u16 (cd.data.totalOffset - u16 (cd.nextSeq - seqNum).toNat)⟩ }
  else { cd with lastEntryIndex := cd.data.entryIndex }

/-- `ObfuscateStreamSegmentsCallback`. -/
def obfuscateStreamSegmentsCallback {σ : Type*} (ob : ObfuscationStruct P) (callback : Callback σ)
    (packet : P) (seg : Segment) (s : StreamCallbackData × σ) : Option (StreamCallbackData × σ) :=
  let payloadSize := u16 ((seg.header.length + seg.payload.length : ℕ) - seg.header.length)
  if seg.header.length = 0 ∨ seg.header.length + seg.payload.length < u16 seg.header.length then none
  else do
    let d ← callback ⟨true, some (seg.header ++ seg.payload), u16 seg.header.length, 0⟩ s.2
    let cd := startSegment s.1 seg.seqNum
    let (data, d) ← traverseObfuscationList ob callback packet cd.data false seg.payload payloadSize d
    some ({ cd with data := data, nextSeq := seg.seqNum + UInt32.ofNat payloadSize }, d)

/-- `OB_API_ObfuscatePacketStreamSegments`; `segments` is what `traverse_stream_segments` goes
through. -/
def obfuscatePacketStreamSegments {σ : Type*} (ob : ObfuscationStruct P) (p : Packet P)
    (segments : List Segment) (callback : Callback σ) (userData : σ) :
    ObfuscationStruct P × Option σ :=
  if !payloadObfuscationRequired ob p then (ob, none)
  else
    let ob := sortObfuscationEntries Q ob
    (ob, do
      let (_, d) ← segments.foldlM
        (fun s seg => obfuscateStreamSegmentsCallback ob callback p.addr seg s)
        (⟨⟨0, 0⟩, 0, 0⟩, userData)
      some d)

end Snort.Obfuscation
