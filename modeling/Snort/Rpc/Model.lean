import Mathlib.Tactic

/-!
# Stateful inspection of RPC records

* `rpcBufAdd`, `rpcPrepRaw`, `rpcPrepFrag`, `rpcPrepSeg`, `rpcHandleFrag`: the buffers of a session and the decode
  buffer;
* `rpcRound`, `rpcLoop`: the fragments of a packet, one after the other;
* `rpcStatefulInspection`, `rpcRun`: a packet, and the packets of a session.

The memory cap is not reached here, and alerts are left out.
-/

namespace Snort.Rpc

/-! ### Bytes and headers -/

/-- A byte of the stream.  No function reads the number of the record it is of. -/
structure Byte where
  value : UInt8
  record : ℕ
  deriving DecidableEq

/-- `RPC_MAX_BUF_SIZE`. -/
def rpcMaxBufSize : ℕ := 256

/-- `RPC_FRAG_HDR_SIZE`. -/
def rpcFragHdrSize : ℕ := 4

/-- `flush_size`. -/
def flushSize : ℕ := 28

/-- `DECODE_BLEN`. -/
def decodeBlen : ℕ := 65535

/-- `htonl`: four bytes, the highest first. -/
def htonl (n : ℕ) : List UInt8 :=
  [UInt8.ofNat (n / 2 ^ 24), UInt8.ofNat (n / 2 ^ 16), UInt8.ofNat (n / 2 ^ 8), UInt8.ofNat n]

/-- `ntohl` of the first four bytes. -/
def ntohl (data : List UInt8) : ℕ :=
  (data.getD 0 0).toNat * 2 ^ 24 + (data.getD 1 0).toNat * 2 ^ 16 + (data.getD 2 0).toNat * 2 ^ 8 +
    (data.getD 3 0).toNat

/-- The values of some bytes. -/
def values (data : List Byte) : List UInt8 := data.map Byte.value

/-- `RPC_FRAG_LEN`. -/
def rpcFragLen (data : List Byte) : ℕ := ntohl (values data) % 2 ^ 31

/-- The last-fragment bit of a header. -/
def lastFrag (data : List Byte) : Bool := (values data).getD 0 0 &&& 0x80 ≠ 0

/-- `SafeMemCheck`: `n` bytes are copied to memory with room for so many. -/
def SafeMemCheck (n room : ℕ) : Prop := 1 ≤ n ∧ n ≤ room

instance (n room : ℕ) : Decidable (SafeMemCheck n room) := inferInstanceAs (Decidable (_ ∧ _))

/-! ### Buffers -/

/-- `RpcBuffer`; memory of size zero is a null pointer. -/
structure RpcBuffer where
  data : List Byte
  size : ℕ
  fits : data.length ≤ size
  held : size ≠ 0 → data ≠ []
  deriving DecidableEq

/-- `RpcBufClean`. -/
def RpcBuffer.clean : RpcBuffer := ⟨[], 0, le_rfl, fun h => absurd rfl h⟩

@[simp] theorem RpcBuffer.clean_data : RpcBuffer.clean.data = [] := rfl

/-- The buffer is moved to more memory for `data`. -/
def RpcBuffer.Grows (buf : RpcBuffer) (data : List Byte) : Prop :=
  buf.size ≠ 0 ∧ buf.size < buf.data.length + data.length

instance (buf : RpcBuffer) (data : List Byte) : Decidable (buf.Grows data) := inferInstanceAs (Decidable (_ ∧ _))

/-- The memory of a buffer that takes `data`. -/
def RpcBuffer.newSize (buf : RpcBuffer) (data : List Byte) : ℕ :=
  let allocSize := max data.length flushSize
  if buf.size = 0 then allocSize else if buf.Grows data then buf.data.length + allocSize else buf.size

/-- `RpcBufAdd`; nothing stands for `RPC_STATUS__ERROR`. -/
def rpcBufAdd (buf : RpcBuffer) (data : List Byte) : Option RpcBuffer :=
  if hdata : data = [] then some buf
  else if buf.Grows data ∧ ¬SafeMemCheck buf.data.length (buf.newSize data) then none
  else if h : SafeMemCheck data.length (buf.newSize data - buf.data.length) then
    some ⟨buf.data ++ data, buf.newSize data, by have := h.1; have := h.2; rw [List.length_append]; omega,
      fun _ => List.append_ne_nil_of_right_ne_nil _ hdata⟩
  else none

theorem RpcBuffer.le_newSize (buf : RpcBuffer) (data : List Byte) :
    buf.data.length + data.length ≤ buf.newSize data := by
  have hfits := buf.fits
  have hmax := le_max_left data.length flushSize
  unfold newSize
  by_cases hsize : buf.size = 0
  · rw [if_pos hsize]
    omega
  · rw [if_neg hsize]
    by_cases hgrows : buf.Grows data
    · rw [if_pos hgrows]
      omega
    · rw [if_neg hgrows]
      exact not_lt.1 fun hlt => hgrows ⟨hsize, hlt⟩

/-- Data is always added: memory that is moved holds something. -/
theorem rpcBufAdd_eq (buf : RpcBuffer) (data : List Byte) :
    ∃ buf', rpcBufAdd buf data = some buf' ∧ buf'.data = buf.data ++ data := by
  unfold rpcBufAdd
  by_cases hdata : data = []
  · rw [dif_pos hdata]
    exact ⟨buf, rfl, by rw [hdata, List.append_nil]⟩
  have hle := buf.le_newSize data
  have hmoved : ¬(buf.Grows data ∧ ¬SafeMemCheck buf.data.length (buf.newSize data)) := by
    rintro ⟨hgrows, hcheck⟩
    exact hcheck ⟨List.length_pos_iff.2 (buf.held hgrows.1), by omega⟩
  have hcopied : SafeMemCheck data.length (buf.newSize data - buf.data.length) :=
    ⟨List.length_pos_iff.2 hdata, by omega⟩
  rw [dif_neg hdata, if_neg hmoved, dif_pos hcopied]
  exact ⟨_, rfl, rfl⟩

/-! ### The session and the decode buffer -/

/-- `RpcSsnData`. -/
structure RpcSsnData where
  fragLen : ℕ
  ignore : ℕ
  nseq : ℕ
  seg : RpcBuffer
  frag : RpcBuffer
  deriving DecidableEq

/-- `DecodeBuffer`: what is written to its start, and the length for detection. -/
structure Decode where
  data : List UInt8
  len : ℕ
  deriving DecidableEq

/-- `RpcPrepRaw`; nothing stands for `RPC_STATUS__ERROR`. -/
def rpcPrepRaw (data : List Byte) (fraglen : ℕ) : Option Decode :=
  if SafeMemCheck (rpcFragHdrSize + fraglen) decodeBlen then
    some ⟨values (data.take (rpcFragHdrSize + fraglen)), (rpcFragHdrSize + fraglen) % 2 ^ 16⟩
  else none

/-- `RpcPrepFrag`. -/
def rpcPrepFrag (s : RpcSsnData) : Option (Decode × RpcSsnData) :=
  let len := s.frag.data.length
  let fraghdr := (htonl len).modifyHead fun byte => byte ||| 0x80
  if SafeMemCheck len (decodeBlen - 4) then
    some (⟨fraghdr ++ values s.frag.data, len % 2 ^ 16⟩,
      if rpcMaxBufSize < len then { s with frag := .clean } else s)
  else none

/-- `RpcPrepSeg`. -/
def rpcPrepSeg (s : RpcSsnData) : Option (Decode × RpcSsnData) :=
  let len := s.seg.data.length
  if SafeMemCheck len decodeBlen then
    some (⟨values s.seg.data, len % 2 ^ 16⟩,
      if rpcMaxBufSize < len then
        { s with ignore := (4 + s.fragLen + 2 ^ 32 - len) % 2 ^ 32, seg := .clean }
      else s)
  else none

/-- `RpcHandleFrag`: whether the status is `RPC_STATUS__DEFRAG`; nothing stands for `RPC_STATUS__ERROR`. -/
def rpcHandleFrag (s : RpcSsnData) (fragment : List Byte) : Option (Bool × RpcSsnData) :=
  if s.frag.data = [] ∧ lastFrag fragment then some (true, s)
  else
    (rpcBufAdd s.frag ((fragment.drop 4).take (rpcFragLen fragment))).map fun frag =>
      (lastFrag fragment, { s with frag := frag })

/-! ### A round of the loop -/

/-- What a round comes to: the session, what is in the decode buffer when `Detect` is called, and the rest of the
data, or nothing when the loop is left. -/
structure Outcome where
  ssn : RpcSsnData
  detected : Option Decode
  rest : Option (List Byte)
  deriving DecidableEq

/-- The data is kept for the next packet. -/
def keepData (s : RpcSsnData) (data : List Byte) : Option Outcome :=
  (rpcBufAdd s.seg data).map fun seg => ⟨{ s with seg := seg }, none, none⟩

/-- A round with an empty segment buffer, in a packet with `dsize` bytes of data. -/
def rawRound (dsize : ℕ) (s : RpcSsnData) (data : List Byte) : Option Outcome :=
  if data.length < rpcFragHdrSize then keepData s data
  else
    let s := { s with fragLen := rpcFragLen data }
    if data.length < rpcFragHdrSize + s.fragLen then keepData s data
    else
      let rest := data.drop (rpcFragHdrSize + s.fragLen)
      (rpcHandleFrag s data).bind fun r =>
        -- a packet that is one fragment needs no decode buffer
        if r.1 ∧ (rest ≠ [] ∨ data.length ≠ dsize) then
          (rpcPrepRaw data s.fragLen).map fun decode => ⟨r.2, some decode, some rest⟩
        else some ⟨r.2, none, some rest⟩

/-- A record whose last fragment is in the segment buffer. -/
def prepDefrag (s : RpcSsnData) : Option (Decode × RpcSsnData) :=
  if s.frag.data ≠ [] then rpcPrepFrag s else rpcPrepSeg s

/-- The fragment in the segment buffer is complete. -/
def segComplete (s : RpcSsnData) (rest : List Byte) : Option Outcome :=
  (rpcHandleFrag s s.seg.data).bind fun r =>
    if r.1 then
      (prepDefrag r.2).map fun prep =>
        ⟨{ prep.2 with frag := .clean, seg := .clean }, some prep.1, some rest⟩
    else some ⟨{ r.2 with seg := .clean }, none, some rest⟩

/-- The header is in the segment buffer, which holds no more than its fragment. -/
def segBody (s : RpcSsnData) (data : List Byte) : Option Outcome :=
  let need := s.fragLen - (s.seg.data.length - rpcFragHdrSize)
  if data.length < need then keepData s data
  else (rpcBufAdd s.seg (data.take need)).bind fun seg => segComplete { s with seg := seg } (data.drop need)

/-- A round with data in the segment buffer. -/
def segRound (s : RpcSsnData) (data : List Byte) : Option Outcome :=
  if s.seg.data.length < rpcFragHdrSize then
    let need := rpcFragHdrSize - s.seg.data.length
    if data.length < need then keepData s data
    else
      (rpcBufAdd s.seg (data.take need)).bind fun seg =>
        segBody { s with seg := seg, fragLen := rpcFragLen seg.data } (data.drop need)
  else segBody s data

/-- A round of the loop. -/
def rpcRound (dsize : ℕ) (s : RpcSsnData) (data : List Byte) : Option Outcome :=
  if s.seg.data = [] then rawRound dsize s data else segRound s data

/-! ### The loop -/

/-- What is left to do: the data twice, and the segment buffer. -/
def work (s : RpcSsnData) (data : List Byte) : ℕ :=
  2 * data.length + if s.seg.data = [] then 0 else 1

variable {dsize : ℕ} {s : RpcSsnData} {data rest : List Byte} {out : Outcome}

theorem keepData_rest (h : keepData s data = some out) : out.rest = none := by
  obtain ⟨seg, -, rfl⟩ := Option.map_eq_some_iff.1 h
  rfl

theorem rpcHandleFrag_seg {fragment : List Byte} {r : Bool × RpcSsnData}
    (h : rpcHandleFrag s fragment = some r) : r.2.seg = s.seg := by
  unfold rpcHandleFrag at h
  split_ifs at h with hlast
  · rw [← Option.some.inj h]
  · obtain ⟨frag, -, rfl⟩ := Option.map_eq_some_iff.1 h
    rfl

theorem rawRound_rest (h : rawRound dsize s data = some out) (hrest : out.rest = some rest) :
    out.ssn.seg = s.seg ∧ rest.length < data.length := by
  unfold rawRound at h
  simp only at h
  split_ifs at h with hheader hfragment
  · exact absurd ((keepData_rest h).symm.trans hrest) (Option.some_ne_none _).symm
  · exact absurd ((keepData_rest h).symm.trans hrest) (Option.some_ne_none _).symm
  obtain ⟨r, hr, h⟩ := Option.bind_eq_some_iff.1 h
  have hseg := rpcHandleFrag_seg hr
  have hlt : (data.drop (rpcFragHdrSize + rpcFragLen data)).length < data.length := by
    unfold rpcFragHdrSize at *
    rw [List.length_drop]
    omega
  split_ifs at h with hdetect
  · obtain ⟨decode, -, rfl⟩ := Option.map_eq_some_iff.1 h
    rw [← Option.some.inj hrest]
    exact ⟨hseg, hlt⟩
  · obtain rfl := Option.some.inj h
    rw [← Option.some.inj hrest]
    exact ⟨hseg, hlt⟩

theorem segComplete_rest (h : segComplete s data = some out) :
    out.ssn.seg = .clean ∧ out.rest = some data := by
  obtain ⟨r, -, h⟩ := Option.bind_eq_some_iff.1 h
  split_ifs at h with hdefrag
  · obtain ⟨prep, -, rfl⟩ := Option.map_eq_some_iff.1 h
    exact ⟨rfl, rfl⟩
  · rw [← Option.some.inj h]
    exact ⟨rfl, rfl⟩

theorem segBody_rest (h : segBody s data = some out) (hrest : out.rest = some rest) :
    out.ssn.seg = .clean ∧ rest.length ≤ data.length := by
  unfold segBody at h
  simp only at h
  split_ifs at h with hshort
  · exact absurd ((keepData_rest h).symm.trans hrest) (Option.some_ne_none _).symm
  · obtain ⟨seg, -, h⟩ := Option.bind_eq_some_iff.1 h
    obtain ⟨hseg, hdata⟩ := segComplete_rest h
    rw [← Option.some.inj (hdata.symm.trans hrest), List.length_drop]
    exact ⟨hseg, Nat.sub_le _ _⟩

theorem segRound_rest (h : segRound s data = some out) (hrest : out.rest = some rest) :
    out.ssn.seg = .clean ∧ rest.length ≤ data.length := by
  unfold segRound at h
  simp only at h
  split_ifs at h with hheader hshort
  · exact absurd ((keepData_rest h).symm.trans hrest) (Option.some_ne_none _).symm
  · obtain ⟨seg, -, h⟩ := Option.bind_eq_some_iff.1 h
    obtain ⟨hseg, hle⟩ := segBody_rest h hrest
    rw [List.length_drop] at hle
    exact ⟨hseg, by omega⟩
  · exact segBody_rest h hrest

/-- A round leaves less to do. -/
theorem rpcRound_rest (h : rpcRound dsize s data = some out) (hrest : out.rest = some rest) :
    out.ssn.seg.data = [] ∧ work out.ssn rest < work s data := by
  unfold rpcRound at h
  unfold work
  split_ifs at h with hseg
  · obtain ⟨hseg', hlt⟩ := rawRound_rest h hrest
    simp only [hseg', hseg, ↓reduceIte, true_and]
    omega
  · obtain ⟨hseg', hle⟩ := segRound_rest h hrest
    simp only [hseg', hseg, RpcBuffer.clean_data, ↓reduceIte, true_and]
    omega

/-- A round: the session before it, the sequence numbers where it starts and ends, and what is in the decode buffer
when `Detect` is called in it. -/
structure Round where
  before : RpcSsnData
  start : ℕ
  stop : ℕ
  detected : Option Decode
  deriving DecidableEq

/-- The round from `data` in the session `s` that came to `out`. -/
def Outcome.round (out : Outcome) (s : RpcSsnData) (data : List Byte) : Round :=
  ⟨s, s.nseq - data.length, s.nseq - (out.rest.getD []).length, out.detected⟩

/-- The loop of `RpcStatefulInspection`. -/
def rpcLoop (dsize : ℕ) (s : RpcSsnData) (data : List Byte) : Option (List Round × RpcSsnData) :=
  if data = [] then some ([], s)
  else
    match h : rpcRound dsize s data with
    | none => none
    | some out =>
      match hrest : out.rest with
      | none => some ([out.round s data], out.ssn)
      | some rest =>
        have := (rpcRound_rest h hrest).2
        (rpcLoop dsize out.ssn rest).map fun r => (out.round s data :: r.1, r.2)
  termination_by work s data

/-- What is behind the loop: what is in the decode buffer on return. -/
def rpcPrep (s : RpcSsnData) : Option (Option Decode × RpcSsnData) :=
  if s.frag.data ≠ [] then (rpcPrepFrag s).map fun r => (some r.1, r.2)
  else if s.seg.data ≠ [] then (rpcPrepSeg s).map fun r => (some r.1, r.2)
  else some (none, s)

/-! ### Packets -/

/-- A packet: its sequence number and its data. -/
structure Packet where
  seq : ℕ
  data : List Byte

/-- What comes of a packet: the rounds, what is in the decode buffer on return, and the session. -/
structure Inspection where
  rounds : List Round
  onReturn : Option Decode
  ssn : RpcSsnData

/-- The loop, and what is behind it. -/
def rpcFragments (dsize : ℕ) (s : RpcSsnData) (data : List Byte) : Option Inspection :=
  (rpcLoop dsize s data).bind fun r => (rpcPrep r.2).map fun prep => ⟨r.1, prep.1, prep.2⟩

/-- `RpcStatefulInspection` behind an overlap. -/
def inspectData (dsize : ℕ) (s : RpcSsnData) (seq : ℕ) (data : List Byte) : Option Inspection :=
  let s := { s with nseq := (seq + data.length) % 2 ^ 32 }
  if s.ignore ≠ 0 then
    if data.length < s.ignore then some ⟨[], none, { s with ignore := s.ignore - data.length }⟩
    else rpcFragments dsize { s with ignore := 0 } (data.drop s.ignore)
  else rpcFragments dsize s data

/-- `RpcStatefulInspection`; nothing stands for `RPC_STATUS__ERROR`. -/
def rpcStatefulInspection (s : RpcSsnData) (p : Packet) : Option Inspection :=
  if s.nseq ≠ p.seq ∧ s.nseq ≠ 0 then
    if s.nseq < p.seq then none
    else
      let overlap := s.nseq - p.seq
      if p.data.length ≤ overlap then some ⟨[], none, s⟩
      else inspectData p.data.length s (p.seq + overlap) (p.data.drop overlap)
  else inspectData p.data.length s p.seq p.data

/-- `RpcSsnDataNew`. -/
def rpcSsnDataNew : RpcSsnData := ⟨0, 0, 0, .clean, .clean⟩

/-- Consecutive packets from the sequence number `seq` on, with what comes of them. -/
def rpcRun (s : RpcSsnData) (seq : ℕ) : List (List Byte) → Option (List (Packet × Inspection))
  | [] => some []
  | data :: packets =>
    (rpcStatefulInspection s ⟨seq, data⟩).bind fun inspection =>
      (rpcRun inspection.ssn (seq + data.length) packets).map fun run => (⟨seq, data⟩, inspection) :: run

end Snort.Rpc
