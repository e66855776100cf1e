import Snort.HttpInspect.ChunkModel

/-!
# The flow depth of a server: `hi_server_extract_body`

The whole of `hi_server_extract_body`: the switch on `server_flow_depth`, which cuts a packet of a body
and counts in `flow_depth_read`, and the two ways through the part on chunks.  Events are left out, and
a function gives `none` where the code reads a byte at `end`.

* `flowDepth`: the switch;
* `FlowDepth.hiServerExtractBody`, `exposed`: one packet, and the packets of one response;
* `flowDepthRead_eq`: the first packet uses up the depth, whatever its length;
* **`exposed_take_iff`**: when a body is exposed up to the flow depth.
-/

namespace Snort.HttpInspect.FlowDepth

open HiPaf (Byte)

/-- `server_flow_depth`, `chunk_length` and `small_chunk_length.size`. -/
structure ServerConf where
  serverFlowDepth : ℤ
  chunkLength : ℕ
  smallChunkSize : ℕ

/-- `HTTP_RESP_STATE`, as far as it is used here. -/
structure BodyState extends RespState where
  lastPktContlen : Bool
  flowDepthRead : ℤ
  deriving DecidableEq

/-- The state behind `ResetRespState` and the headers of a response that is not chunked. -/
def BodyState.reset (contlen : Bool) : BodyState :=
  { lastPktChunked := false, chunkRemainder := 0, lastPktContlen := contlen, flowDepthRead := 0 }

/-- `HI_SUCCESS` and `STAT_END`. -/
inductive Ret
  | success
  | statEnd
  deriving DecidableEq

/-- The switch on `server_flow_depth`, for a packet of `length` bytes: how many are left of it, if the
result is not `NULL`, and `flow_depth_read`. -/
def flowDepth (serverFlowDepth flowDepthRead : ℤ) (length : ℕ) : Option (ℕ × ℤ) :=
  if serverFlowDepth = -1 then none
  else if serverFlowDepth = 0 then some (length, flowDepthRead)
  else if flowDepthRead < serverFlowDepth then
    let bytesToRead := serverFlowDepth - flowDepthRead
    some (if length > bytesToRead then bytesToRead.toNat else length, flowDepthRead + bytesToRead)
  else none

/-- `hi_server_extract_body`: the bytes of `result`, if it is not `NULL`, the state and the value
returned.  `maxSize` is the size of `HttpDecodeBuf`. -/
def hiServerExtractBody (maxSize : ℕ) (conf : ServerConf) (s : BodyState) (packet : List Byte) :
    Option (Option (List Byte) × BodyState × Ret) :=
  match flowDepth conf.serverFlowDepth s.flowDepthRead packet.length with
  | none => some (none, s, .success)
  | some (length, read) =>
    let data := packet.take length
    let s := { s with flowDepthRead := read }
    if s.lastPktContlen then some (some data, s, .statEnd)
    else if conf.chunkLength ≠ 0 ∨ conf.smallChunkSize ≠ 0 then
      if s.lastPktChunked then
        (checkChunkEncoding maxSize data s.chunkRemainder).map fun t =>
          if t.chunkPresent then
            (some t.iChunkBuf, { s with chunkRemainder := t.updatedChunkRemainder }, .success)
          else (some data, { s with lastPktChunked := false }, .statEnd)
      else some (some data, s, .statEnd)
    else some (some data, s, .success)

/-- The bytes that are exposed of the packets of one response, one after the other. -/
def exposed (maxSize : ℕ) (conf : ServerConf) : BodyState → List (List Byte) → Option (List Byte)
  | _, [] => some []
  | s, p :: ps => do
    let (result, s, _) ← hiServerExtractBody maxSize conf s p
    let rest ← exposed maxSize conf s ps
    some (result.getD [] ++ rest)

variable {maxSize : ℕ} {conf : ServerConf} {s : BodyState}

/-- What the switch does under a depth. -/
theorem flowDepth_of_lt {d read : ℤ} (hd : 0 < d) (hlt : read < d) (length : ℕ) :
    flowDepth d read length = some (min (d - read).toNat length, d) := by
  rw [flowDepth, if_neg (by omega), if_neg hd.ne', if_pos hlt]
  simp only [Option.some.injEq, Prod.mk.injEq]
  constructor
  · split <;> omega
  · omega

theorem flowDepth_of_le {d read : ℤ} (hd : 0 < d) (hle : d ≤ read) (length : ℕ) :
    flowDepth d read length = none := by
  rw [flowDepth, if_neg (by omega), if_neg hd.ne', if_neg (by omega)]

variable (maxSize conf) in
/-- On a body that is not chunked the switch is all that counts. -/
theorem hiServerExtractBody_plain (hs : s.lastPktChunked = false) (p : List Byte) :
    ∃ ret, hiServerExtractBody maxSize conf s p =
      match flowDepth conf.serverFlowDepth s.flowDepthRead p.length with
      | none => some (none, s, ret)
      | some (length, read) => some (some (p.take length), { s with flowDepthRead := read }, ret) := by
  unfold hiServerExtractBody
  cases flowDepth conf.serverFlowDepth s.flowDepthRead p.length with
  | none => exact ⟨_, rfl⟩
  | some r =>
    dsimp only
    by_cases hcontlen : s.lastPktContlen = true
    · exact ⟨.statEnd, by rw [if_pos hcontlen]⟩
    · rw [if_neg hcontlen]
      by_cases hchunk : conf.chunkLength ≠ 0 ∨ conf.smallChunkSize ≠ 0
      · refine ⟨.statEnd, ?_⟩
        rw [if_pos hchunk, if_neg (by simp [hs])]
      · exact ⟨.success, if_neg hchunk⟩

variable (maxSize) in
/-- Behind the flow depth nothing is exposed. -/
theorem exposed_of_le (hd : 0 < conf.serverFlowDepth) (hs : s.lastPktChunked = false)
    (hle : conf.serverFlowDepth ≤ s.flowDepthRead) (ps : List (List Byte)) :
    exposed maxSize conf s ps = some [] := by
  induction ps with
  | nil => rfl
  | cons p ps ih =>
    obtain ⟨ret, hcall⟩ := hiServerExtractBody_plain maxSize conf hs p
    rw [flowDepth_of_le hd hle] at hcall
    simp [exposed, hcall, ih]

variable (maxSize) in
/-- The first packet uses up the depth, whatever its length. -/
theorem exposed_cons (hd : 0 < conf.serverFlowDepth) (hs : s.lastPktChunked = false)
    (hlt : s.flowDepthRead < conf.serverFlowDepth) (p : List Byte) (ps : List (List Byte)) :
    exposed maxSize conf s (p :: ps) =
      some (p.take (conf.serverFlowDepth - s.flowDepthRead).toNat) := by
  obtain ⟨ret, hcall⟩ := hiServerExtractBody_plain maxSize conf hs p
  rw [flowDepth_of_lt hd hlt] at hcall
  have hrest := exposed_of_le maxSize (s := { s with flowDepthRead := conf.serverFlowDepth })
    hd hs le_rfl ps
  simp [exposed, hcall, hrest, List.take_eq_take_iff]

/-- **When a body is exposed up to the flow depth**: the first packet reaches it, or nothing comes
behind it. -/
theorem exposed_take_iff {conf : ServerConf} (hd : 0 < conf.serverFlowDepth) (maxSize : ℕ)
    (contlen : Bool) (ps : List (List Byte)) :
    exposed maxSize conf (.reset contlen) ps =
      some (ps.flatten.take conf.serverFlowDepth.toNat) ↔
    ((∃ p ∈ ps.head?, conf.serverFlowDepth ≤ p.length) ∨ ∀ p ∈ ps.tail, p = []) := by
  cases ps with
  | nil => simp [exposed]
  | cons p ps =>
    have hdepth : (BodyState.reset contlen).flowDepthRead = 0 := rfl
    have hfirst := exposed_cons maxSize (s := .reset contlen) hd rfl hd p ps
    rw [hdepth, Int.sub_zero] at hfirst
    rw [hfirst, Option.some_inj, List.flatten_cons, List.take_append, List.self_eq_append_right,
      List.take_eq_nil_iff, List.flatten_eq_nil_iff]
    have hlength : conf.serverFlowDepth.toNat - p.length = 0 ↔ conf.serverFlowDepth ≤ p.length := by
      omega
    simp [hlength]

/-- A body of six bytes in two packets, and a depth of four. -/
theorem exposed_take_iff_first :
    exposed 65535 ⟨4, 500000, 0⟩ (.reset false) [[1, 2, 3, 4, 5], [6]] = some [1, 2, 3, 4] :=
  (exposed_take_iff (show 0 < (⟨4, 500000, 0⟩ : ServerConf).serverFlowDepth by decide) 65535 false [[1, 2, 3, 4, 5], [6]]).2
    (Or.inl ⟨_, rfl, by decide⟩)

/-- The second packet is not exposed, although only two bytes have been. -/
theorem exposed_short :
    exposed 65535 ⟨4, 500000, 0⟩ (.reset false) [[1, 2], [3, 4, 5]] = some [1, 2] ∧
    [[1, 2], [3, 4, 5]].flatten.take 4 = [1, 2, 3, 4] := by
  decide

end Snort.HttpInspect.FlowDepth
