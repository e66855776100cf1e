import Snort.Rpc.Rounds
import Snort.Lib.Loop

/-!
# Stateless defragmentation: `ConvertRPC`

* `readHeader`, `readRaw`: reads of the packet; `overwrite`: a write to `DecodeBuffer`; outside of these is a fault;
* `convertTurn`, `convertRPC`: the function;
* `Copied`: what the loop has copied to the buffer; `run_fragments`: the loop on the rest of a record;
* `convertRPC_returns`: no fault on any packet;
* **`convertRPC_iff`**: a record in fragments is not converted to one fragment, since the header is counted with the
  data.
-/

namespace Snort.Rpc

/-! ### The function -/

/-- `RPC_MULTIPLE_RECORD`, `RPC_LARGE_FRAGSIZE`, `RPC_INCOMPLETE_SEGMENT` and `RPC_ZERO_LENGTH_FRAGMENT`. -/
inductive Event
  | multipleRecord
  | largeFragsize
  | incompleteSegment
  | zeroLengthFragment
  deriving DecidableEq

/-- What `ConvertRPC` reads of a packet: the payload, with a length of 16 bits, and `PKT_REBUILT_STREAM`. -/
structure Payload where
  data : List UInt8
  rebuilt : Bool
  short : data.length < 2 ^ 16

/-- What is returned (nothing stands for 0), whether `RPC_FRAG_TRAFFIC` is alerted, the bytes of `DecodeBuffer`, and its
length for detection where it is set. -/
structure Converted where
  event : Option Event
  fragTraffic : Bool
  buffer : List UInt8
  len : Option ℕ
  deriving DecidableEq

/-- The variables of the loop. -/
structure ConvertVars where
  dataIndex : ℕ
  normIndex : ℕ
  decodedLen : ℕ
  fragcount : ℕ
  lastFragment : Bool
  buffer : List UInt8

/-- The loop is left, or the function returns from it. -/
inductive LoopEnd
  | left (v : ConvertVars)
  | returned (event : Option Event) (buffer : List UInt8)

/-- `len` bytes of the packet. -/
def readRaw (data : List UInt8) (start len : ℕ) : Option (List UInt8) :=
  if start + len ≤ data.length then some ((data.drop start).take len) else none

/-- `fraghdr`. -/
def readHeader (data : List UInt8) (start : ℕ) : Option ℕ := (readRaw data start 4).map ntohl

/-- Bytes are written to the buffer. -/
def overwrite (buffer : List UInt8) (start : ℕ) (bytes : List UInt8) : Option (List UInt8) :=
  if start + bytes.length ≤ buffer.length then
    some (buffer.take start ++ bytes ++ buffer.drop (start + bytes.length))
  else none

/-- A turn of the loop. -/
def convertTurn (data : List UInt8) (v : ConvertVars) : Option (Loop.Turn ConvertVars LoopEnd) :=
  if 4 ≤ (data.length : ℤ) - v.dataIndex ∧ ¬v.lastFragment then do
    let fraghdr ← readHeader data v.dataIndex
    let length := fraghdr % 2 ^ 31
    if length = 0 then return .done (.left v)
    let dataIndex := v.dataIndex + 4
    let decodedLen := (length + v.decodedLen) % 2 ^ 32
    if decodedLen < v.decodedLen then return .done (.returned (some .largeFragsize) v.buffer)
    if data.length < length then return .done (.returned (some .incompleteSegment) v.buffer)
    if data.length < decodedLen then return .done (.returned (some .largeFragsize) v.buffer)
    if data.length < dataIndex + length then return .done (.returned (some .largeFragsize) v.buffer)
    -- `SafeMemcpy`
    if SafeMemCheck length (decodeBlen - v.normIndex) then
      let bytes ← readRaw data dataIndex length
      let buffer ← overwrite v.buffer v.normIndex bytes
      return .more ⟨dataIndex + length, v.normIndex + length, decodedLen, v.fragcount + 1, decide (2 ^ 31 ≤ fraghdr),
        buffer⟩
    return .done (.returned none v.buffer)
  else some (.done (.left v))

/-- What is done behind the loop: the header is rewritten, and the length is set. -/
def convertEnd (psize : ℕ) (fragTraffic : Bool) : LoopEnd → Option Converted
  | .returned event buffer => some ⟨event, fragTraffic, buffer, none⟩
  | .left v =>
    (overwrite v.buffer 0 ((htonl v.decodedLen).modifyHead fun byte => byte ||| 0x80)).map fun buffer =>
      -- `(fragcount - 1) * 4` is negative without a fragment
      if (v.decodedLen + v.fragcount * 4 + 2 ^ 32 - 4) % 2 ^ 32 ≠ psize then
        ⟨some .multipleRecord, fragTraffic, buffer, none⟩
      else ⟨none, fragTraffic, buffer, some (v.decodedLen % 2 ^ 16)⟩

/-- `ConvertRPC`, with the bytes of `DecodeBuffer` before the call. -/
def convertRPC (alertFragments : Bool) (p : Payload) (buffer : List UInt8) : Option Converted :=
  if p.data.length < 32 then some ⟨none, false, buffer, none⟩
  else
    (readHeader p.data 0).bind fun fraghdr =>
      if 2 ^ 31 ≤ fraghdr then
        let length := fraghdr % 2 ^ 31
        if length + 4 ≠ p.data.length ∧ ¬p.rebuilt then some ⟨some .multipleRecord, false, buffer, none⟩
        else if length = 0 then some ⟨some .zeroLengthFragment, false, buffer, none⟩
        else some ⟨none, false, buffer, none⟩
      else
        match Loop.run (convertTurn p.data) (p.data.length + 1) ⟨0, 4, 4, 0, false, buffer⟩ with
        | .returns r => convertEnd p.data.length alertFragments r
        | _ => none

/-! ### Records -/

/-- The data of two or more fragments. -/
structure Fragmented (fragments : List (List UInt8)) : Prop where
  several : 2 ≤ fragments.length
  pos : ∀ data ∈ fragments, data ≠ []

/-- The bytes of a record. -/
def recordBytes (fragments : List (List UInt8)) : List UInt8 := values (fragmentBytes (recordFragments 0 fragments))

/-- A record with `data` is converted to one fragment: zero is returned, the decode buffer shows the data, and it is what
`RpcPrepFrag` copies to it for that record. -/
def Converted.OneFragment (c : Converted) (data : List UInt8) : Prop :=
  c.event = none ∧ (∃ len, c.len = some len ∧ Decode.Shows ⟨c.buffer, len⟩ data) ∧
    ∀ s : RpcSsnData, values s.frag.data = data →
      ∃ d s', rpcPrepFrag s = some (d, s') ∧ c.buffer.take (data.length + 4) = d.data

variable {data buffer pre done bytes : List UInt8} {fragments : List (List UInt8)} {v : ConvertVars} {p : Payload}

theorem recordBytes_cons (d : List UInt8) (fragments : List (List UInt8)) :
    recordBytes (d :: fragments) = fragHeader fragments.isEmpty d.length ++ d ++ recordBytes fragments := by
  rw [recordBytes, recordFragments, fragmentBytes_cons, values, List.map_append, ← values, ← values, values_bytes]
  rfl

/-- A record has a header for each fragment. -/
theorem length_recordBytes (fragments : List (List UInt8)) :
    (recordBytes fragments).length = fragments.flatten.length + 4 * fragments.length := by
  induction fragments with
  | nil => rfl
  | cons d fragments ih =>
    rw [recordBytes_cons, List.length_append, List.length_append, ih, length_fragHeader, List.flatten_cons,
      List.length_append, List.length_cons]
    omega

/-! ### Reading and writing -/

theorem readRaw_inside {start len : ℕ} (h : start + len ≤ data.length) :
    ∃ bytes, readRaw data start len = some bytes ∧ bytes.length = len := by
  refine ⟨_, if_pos h, ?_⟩
  rw [List.length_take, List.length_drop]
  omega

theorem readHeader_inside {start : ℕ} (h : start + 4 ≤ data.length) :
    ∃ fraghdr, readHeader data start = some fraghdr := by
  obtain ⟨bytes, hbytes, -⟩ := readRaw_inside h
  exact ⟨ntohl bytes, by rw [readHeader, hbytes]; rfl⟩

theorem overwrite_inside {start : ℕ} (h : start + bytes.length ≤ buffer.length) :
    ∃ buffer', overwrite buffer start bytes = some buffer' ∧ buffer'.length = buffer.length := by
  refine ⟨_, if_pos h, ?_⟩
  simp only [List.length_append, List.length_take, List.length_drop]
  omega

theorem readRaw_append (pre bytes rest : List UInt8) :
    readRaw (pre ++ (bytes ++ rest)) pre.length bytes.length = some bytes := by
  rw [readRaw, if_pos (by simp only [List.length_append]; omega), List.drop_left, List.take_left]

theorem overwrite_append (pre : List UInt8) {tail : List UInt8} (h : bytes.length ≤ tail.length) :
    overwrite (pre ++ tail) pre.length bytes = some (pre ++ bytes ++ tail.drop bytes.length) := by
  rw [overwrite, if_pos (by rw [List.length_append]; omega), List.take_left, ← List.drop_drop, List.drop_left]

/-! ### The loop -/

/-- What holds between two turns. -/
structure Converting (data : List UInt8) (v : ConvertVars) : Prop where
  size : v.buffer.length = decodeBlen
  norm : v.normIndex = v.decodedLen
  decoded : v.decodedLen ≤ data.length
  index : v.dataIndex ≤ data.length

/-- The buffer keeps its size until the end. -/
def LoopEnd.Sized : LoopEnd → Prop
  | .left v => v.buffer.length = decodeBlen
  | .returned _ buffer => buffer.length = decodeBlen

theorem convertTurn_spec (hdata : data.length < 2 ^ 16) (v : ConvertVars) (hv : Converting data v) :
    ∃ t, convertTurn data v = some t ∧
      t.Keeps (Converting data) (fun v => data.length - v.dataIndex) LoopEnd.Sized (data.length - v.dataIndex) := by
  unfold convertTurn
  split_ifs with hturn
  · obtain ⟨fraghdr, hfraghdr⟩ := readHeader_inside (show v.dataIndex + 4 ≤ data.length by omega)
    simp only [hfraghdr, Option.bind_eq_bind, Option.bind_some]
    split_ifs with hzero hover hlong hlarge hend hcopy
    · exact ⟨_, rfl, hv.size⟩
    · exact ⟨_, rfl, hv.size⟩
    · exact ⟨_, rfl, hv.size⟩
    · exact ⟨_, rfl, hv.size⟩
    · exact ⟨_, rfl, hv.size⟩
    · have hdecoded := hv.decoded
      have hnorm := hv.norm
      have hroom := hcopy.2
      obtain ⟨bytes, hbytes, hlen⟩ := readRaw_inside
        (show v.dataIndex + 4 + fraghdr % 2 ^ 31 ≤ data.length by omega)
      obtain ⟨buffer, hbuffer, hsize⟩ := overwrite_inside
        (show v.normIndex + bytes.length ≤ v.buffer.length by rw [hlen, hv.size]; omega)
      simp only [hbytes, hbuffer, Option.bind_some]
      refine ⟨_, rfl, ⟨hsize.trans hv.size, ?_, not_lt.1 hlarge, not_lt.1 hend⟩, ?_⟩
      · dsimp only
        omega
      · dsimp only
        omega
    · exact ⟨_, rfl, hv.size⟩
  · exact ⟨_, rfl, hv.size⟩

/-- **No fault**: the loop ends, nothing is read outside of the packet, and nothing is written outside of the buffer. -/
theorem convertRPC_returns (alertFragments : Bool) (p : Payload) {buffer : List UInt8}
    (hbuffer : buffer.length = decodeBlen) :
    ∃ c, convertRPC alertFragments p buffer = some c ∧ c.buffer.length = decodeBlen := by
  unfold convertRPC
  split_ifs with hmin
  · exact ⟨_, rfl, hbuffer⟩
  obtain ⟨fraghdr, hfraghdr⟩ := readHeader_inside (show 0 + 4 ≤ p.data.length by omega)
  rw [hfraghdr, Option.bind_some]
  by_cases hbit : 2 ^ 31 ≤ fraghdr
  · rw [if_pos hbit]
    dsimp only
    split_ifs
    · exact ⟨_, rfl, hbuffer⟩
    · exact ⟨_, rfl, hbuffer⟩
    · exact ⟨_, rfl, hbuffer⟩
  · rw [if_neg hbit]
    obtain ⟨r, hr, hsized⟩ := Loop.run_returns (convertTurn_spec p.short)
      (show Converting p.data ⟨0, 4, 4, 0, false, buffer⟩ from ⟨hbuffer, rfl, by dsimp only; omega, Nat.zero_le _⟩)
      (show p.data.length - 0 < p.data.length + 1 by omega)
    rw [hr]
    cases r with
    | returned event buffer => exact ⟨_, rfl, hsized⟩
    | left v =>
      have hsize : v.buffer.length = decodeBlen := hsized
      obtain ⟨buffer', hbuffer', hsize'⟩ := overwrite_inside (show
        0 + ((htonl v.decodedLen).modifyHead fun byte => byte ||| 0x80).length ≤ v.buffer.length by
          rw [hsize, List.length_modifyHead]
          exact (by decide : 0 + 4 ≤ decodeBlen))
      dsimp only [convertEnd]
      rw [hbuffer', Option.map_some]
      refine ⟨_, rfl, ?_⟩
      split_ifs
      · exact hsize'.trans hsize
      · exact hsize'.trans hsize

/-! ### A record -/

/-- What has been copied. -/
structure Copied (v : ConvertVars) (done : List UInt8) : Prop where
  norm : v.normIndex = 4 + done.length
  decoded : v.decodedLen = 4 + done.length
  copied : ∃ hdr tail, hdr.length = 4 ∧ v.buffer = hdr ++ done ++ tail ∧ v.buffer.length = decodeBlen

theorem ntohl_fragHeader {last : Bool} {n : ℕ} (hn : n < 2 ^ 31) :
    ntohl (fragHeader last n) = (if last then 2 ^ 31 else 0) + n := by
  rw [fragHeader, ← List.append_nil (htonl _)]
  refine ntohl_htonl ?_ []
  split_ifs <;> omega

/-- A turn copies a fragment. -/
theorem convertTurn_fragment {d rest : List UInt8} {last : Bool} (hdata : data.length < 2 ^ 16)
    (h : data = pre ++ (fragHeader last d.length ++ d ++ rest)) (hindex : v.dataIndex = pre.length)
    (hlast : v.lastFragment = false) (hd : d ≠ []) (hv : Copied v done) (hfits : 4 + done.length + d.length ≤ data.length) :
    ∃ v', convertTurn data v = some (.more v') ∧ Copied v' (done ++ d) ∧ v'.dataIndex = pre.length + 4 + d.length ∧
      v'.lastFragment = last ∧ v'.fragcount = v.fragcount + 1 := by
  have hlen := congrArg List.length h
  simp only [List.length_append, length_fragHeader] at hlen
  have hpos := List.length_pos_iff.2 hd
  have hheader : readHeader data v.dataIndex = some ((if last then 2 ^ 31 else 0) + d.length) := by
    have hread := readRaw_append pre (fragHeader last d.length) (d ++ rest)
    rw [length_fragHeader, ← List.append_assoc (fragHeader last d.length), ← h] at hread
    rw [readHeader, hindex, hread, Option.map_some, ntohl_fragHeader (by omega)]
  have hbytes : readRaw data (v.dataIndex + 4) d.length = some d := by
    have hread := readRaw_append (pre ++ fragHeader last d.length) d rest
    rw [List.length_append, length_fragHeader, List.append_assoc pre, ← List.append_assoc (fragHeader last d.length),
      ← h, ← hindex] at hread
    exact hread
  obtain ⟨hdr, tail, hhdr, hbuffer, hsize⟩ := hv.copied
  have htail : 4 + done.length + tail.length = decodeBlen := by
    rw [← hsize, hbuffer, List.length_append, List.length_append, hhdr]
  have hroom : decodeBlen = 65535 := rfl
  have hwrite : overwrite v.buffer v.normIndex d = some (hdr ++ done ++ d ++ tail.drop d.length) := by
    rw [hbuffer, hv.norm, show 4 + done.length = (hdr ++ done).length by rw [List.length_append, hhdr]]
    exact overwrite_append _ (by omega)
  have hmod : ((if last then 2 ^ 31 else 0) + d.length) % 2 ^ 31 = d.length := by
    cases last
    · simp only [Bool.false_eq_true, if_false]
      omega
    · simp only [if_true]
      omega
  have hbit : decide (2 ^ 31 ≤ (if last then 2 ^ 31 else 0) + d.length) = last := by
    cases last
    · simp only [Bool.false_eq_true, if_false]
      exact decide_eq_false (by omega)
    · simp
  have hdecoded := hv.decoded
  have hnorm := hv.norm
  refine ⟨⟨v.dataIndex + 4 + d.length, v.normIndex + d.length, v.decodedLen + d.length, v.fragcount + 1, last,
    hdr ++ done ++ d ++ tail.drop d.length⟩, ?_, ⟨?_, ?_, hdr, tail.drop d.length, hhdr, ?_, ?_⟩, ?_, rfl, rfl⟩
  · rw [convertTurn, if_pos ⟨by omega, by rw [hlast]; decide⟩]
    simp only [hheader, Option.bind_eq_bind, Option.bind_some, hmod, hbit]
    rw [if_neg (by omega), Nat.mod_eq_of_lt (by omega), if_neg (by omega), if_neg (by omega), if_neg (by omega),
      if_neg (by omega), if_pos ⟨hpos, by omega⟩, hbytes, Option.bind_some, hwrite, Option.bind_some, Nat.add_comm d.length]
    rfl
  · rw [List.length_append]
    dsimp only
    omega
  · rw [List.length_append]
    dsimp only
    omega
  · simp only [List.append_assoc]
  · simp only [List.length_append, List.length_drop]
    omega
  · dsimp only
    omega

/-- **The rest of a record** is copied behind what has been. -/
theorem run_fragments {fuel : ℕ} (hdata : data.length < 2 ^ 16) (h : data = pre ++ recordBytes fragments)
    (hne : fragments ≠ []) (hpos : ∀ d ∈ fragments, d ≠ []) (hindex : v.dataIndex = pre.length)
    (hlast : v.lastFragment = false) (hv : Copied v done) (hfits : 4 + done.length + fragments.flatten.length ≤ data.length)
    (hfuel : fragments.length < fuel) :
    ∃ v', Loop.run (convertTurn data) fuel v = .returns (.left v') ∧ Copied v' (done ++ fragments.flatten) ∧
      v'.fragcount = v.fragcount + fragments.length := by
  induction fragments generalizing pre v done fuel with
  | nil => exact absurd rfl hne
  | cons d fragments ih =>
    obtain ⟨fuel, rfl⟩ : ∃ m, fuel = m + 1 := ⟨fuel - 1, by omega⟩
    rw [recordBytes_cons] at h
    rw [List.flatten_cons, List.length_append] at hfits
    rw [List.length_cons] at hfuel
    obtain ⟨v', hturn, hv', hindex', hlast', hcount'⟩ := convertTurn_fragment hdata h hindex hlast
      (hpos d List.mem_cons_self) hv (by omega)
    rw [Loop.run, hturn]
    cases hfragments : fragments with
    | nil =>
      subst hfragments
      obtain ⟨fuel, rfl⟩ : ∃ m, fuel = m + 1 := ⟨fuel - 1, by omega⟩
      refine ⟨v', ?_, by rwa [List.flatten_cons, List.flatten_nil, List.append_nil], hcount'⟩
      have hstop : ¬(4 ≤ (data.length : ℤ) - v'.dataIndex ∧ ¬v'.lastFragment) := fun h => h.2 hlast'
      dsimp only
      rw [Loop.run, convertTurn, if_neg hstop]
    | cons d' rest =>
      rw [← hfragments]
      have hne' : fragments ≠ [] := by
        rw [hfragments]
        exact List.cons_ne_nil _ _
      have hlast'' : v'.lastFragment = false := by rw [hlast', hfragments]; rfl
      obtain ⟨v'', hrun, hv'', hcount''⟩ := ih
        (show data = (pre ++ (fragHeader fragments.isEmpty d.length ++ d)) ++ recordBytes fragments by
          rw [h, List.append_assoc pre]) hne'
        (fun d hd => hpos d (List.mem_cons_of_mem _ hd))
        (by rw [hindex', List.length_append, List.length_append, length_fragHeader]; omega) hlast'' hv'
        (by rw [List.length_append]; omega) (show fragments.length < fuel by omega)
      refine ⟨v'', hrun, ?_, ?_⟩
      · rw [List.flatten_cons, ← List.append_assoc]
        exact hv''
      · rw [hcount'', hcount', List.length_cons]
        omega

/-- What a record of two or more fragments is converted to: the header counts itself. -/
theorem convertRPC_record (alertFragments : Bool) (h : Fragmented fragments) (hdata : p.data = recordBytes fragments)
    (hmin : 32 ≤ p.data.length) (hbuffer : buffer.length = decodeBlen) :
    ∃ tail, convertRPC alertFragments p buffer =
      some ⟨none, alertFragments, (htonl (fragments.flatten.length + 4)).modifyHead (fun byte => byte ||| 0x80) ++
        fragments.flatten ++ tail, some (fragments.flatten.length + 4)⟩ := by
  have hlen := length_recordBytes fragments
  have hshort := p.short
  rw [← hdata] at hlen
  obtain ⟨d, rest, rfl⟩ := List.exists_cons_of_ne_nil (l := fragments) (by
    rintro rfl
    exact absurd h.several (by decide))
  have hrest : rest.isEmpty = false := by
    cases rest with
    | nil => exact absurd h.several (by simp)
    | cons d' rest => rfl
  have hd : d.length < 2 ^ 16 := by
    rw [List.flatten_cons, List.length_append] at hlen
    omega
  have hheader : readHeader p.data 0 = some d.length := by
    have hread := readRaw_append [] (fragHeader false d.length) (d ++ recordBytes rest)
    rw [List.nil_append, length_fragHeader, ← List.append_assoc (fragHeader false d.length), ← hrest, ← recordBytes_cons,
      ← hdata, List.length_nil] at hread
    rw [readHeader, hread, Option.map_some, hrest, ntohl_fragHeader (by omega)]
    simp
  obtain ⟨v, hrun, hv, hcount⟩ := run_fragments p.short (hdata.trans (List.nil_append _).symm)
    (List.cons_ne_nil _ _) h.pos rfl rfl
    (show Copied ⟨0, 4, 4, 0, false, buffer⟩ [] from
      ⟨rfl, rfl, buffer.take 4, buffer.drop 4, by rw [List.length_take, hbuffer]; rfl, by simp, hbuffer⟩)
    (by rw [List.length_nil]; have := h.several; omega)
    (show (d :: rest).length < p.data.length + 1 by omega)
  rw [List.nil_append] at hv
  dsimp only at hcount
  rw [Nat.zero_add] at hcount
  obtain ⟨hdr, tail, hhdr, hvbuffer, hsize⟩ := hv.copied
  refine ⟨tail, ?_⟩
  rw [convertRPC, if_neg (by omega), hheader, Option.bind_some, if_neg (by omega), hrun]
  have hmark : ((htonl v.decodedLen).modifyHead fun byte => byte ||| 0x80).length = 4 := by
    rw [List.length_modifyHead]
    rfl
  have hwrite := overwrite_append []
    (show ((htonl v.decodedLen).modifyHead fun byte => byte ||| 0x80).length ≤ v.buffer.length by
      rw [hmark, hsize]; decide)
  rw [hmark, hvbuffer, List.append_assoc hdr, ← hhdr, List.drop_left, ← List.append_assoc hdr, ← hvbuffer, List.nil_append,
    List.nil_append, List.length_nil] at hwrite
  dsimp only [convertEnd]
  rw [hwrite, Option.map_some]
  have hdecoded := hv.decoded
  have hseveral := h.several
  rw [if_neg (by omega), Nat.mod_eq_of_lt (by omega), hdecoded, Nat.add_comm 4, List.append_assoc]

/-- Such a header is not the one of a fragment. -/
theorem not_oneFragment {tail : List UInt8} {alert : Bool} {d : List UInt8} (hd : d.length < 2 ^ 16) :
    ¬Converted.OneFragment ⟨none, alert, (htonl (d.length + 4)).modifyHead (fun byte => byte ||| 0x80) ++ d ++ tail,
      some (d.length + 4)⟩ d := by
  rintro ⟨-, ⟨len, -, hshows⟩, -⟩
  have hheader := ntohl_of_shows (by omega) hshows
  dsimp only at hheader
  rw [List.append_assoc, ntohl_marked (by omega)] at hheader
  omega

/-- **Stateless defragmentation**: no packet leads to a read or a write out of bounds, and a packet is converted as it is to
be exactly when it is not one record of two or more fragments. -/
theorem convertRPC_iff (alertFragments : Bool) (p : Payload) (buffer : List UInt8) (hmin : 32 ≤ p.data.length)
    (hbuffer : buffer.length = decodeBlen) :
    ∃ c, convertRPC alertFragments p buffer = some c ∧ c.buffer.length = decodeBlen ∧
      ((∀ fragments, Fragmented fragments → p.data = recordBytes fragments → c.OneFragment fragments.flatten) ↔
        ¬∃ fragments, Fragmented fragments ∧ p.data = recordBytes fragments) := by
  obtain ⟨c, hc, hsize⟩ := convertRPC_returns alertFragments p hbuffer
  refine ⟨c, hc, hsize, ?_, fun hnone fragments h hdata => absurd ⟨fragments, h, hdata⟩ hnone⟩
  rintro hone ⟨fragments, h, hdata⟩
  obtain ⟨tail, htail⟩ := convertRPC_record alertFragments h hdata hmin hbuffer
  obtain rfl := Option.some.inj (hc.symm.trans htail)
  have hlen := length_recordBytes fragments
  have hshort := p.short
  rw [← hdata] at hlen
  exact not_oneFragment (by omega) (hone fragments h hdata)

/-- A record of two fragments with twelve bytes of data each. -/
def twelveAndTwelve : Payload := ⟨recordBytes [List.replicate 12 65, List.replicate 12 66], false, by decide⟩

theorem convertRPC_iff_twelve :
    ∃ c, convertRPC false twelveAndTwelve (List.replicate decodeBlen 0) = some c ∧ c.buffer.length = decodeBlen ∧
      ((∀ fragments, Fragmented fragments → twelveAndTwelve.data = recordBytes fragments →
          c.OneFragment fragments.flatten) ↔
        ¬∃ fragments, Fragmented fragments ∧ twelveAndTwelve.data = recordBytes fragments) :=
  convertRPC_iff false twelveAndTwelve (List.replicate decodeBlen 0) (by decide) List.length_replicate

/-- The header says that 28 bytes follow. -/
theorem twelveAndTwelve_not_converted :
    ∃ c, convertRPC false twelveAndTwelve (List.replicate decodeBlen 0) = some c ∧
      c.buffer.take 4 = [128, 0, 0, 28] ∧ c.len = some 28 ∧
        ¬c.OneFragment (List.replicate 12 65 ++ List.replicate 12 66) := by
  have hrecord : Fragmented [List.replicate 12 65, List.replicate 12 66] := ⟨by decide, by decide⟩
  obtain ⟨tail, htail⟩ := convertRPC_record false hrecord
    (show twelveAndTwelve.data = _ from rfl) (by decide)
    (show (List.replicate decodeBlen (0 : UInt8)).length = decodeBlen from List.length_replicate)
  have hflatten : [List.replicate 12 65, List.replicate 12 66].flatten =
      (List.replicate 12 65 ++ List.replicate 12 66 : List UInt8) := rfl
  rw [hflatten] at htail
  refine ⟨_, htail, ?_, rfl, not_oneFragment (by decide)⟩
  dsimp only
  rw [List.append_assoc]
  refine (List.take_left' (i := 4) rfl).trans ?_
  decide

end Snort.Rpc
