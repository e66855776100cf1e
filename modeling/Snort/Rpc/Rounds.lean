import Snort.Rpc.Model

/-!
# Streams of RPC records, and the rounds of a packet

* `Record`, `Fragment`, `stream`: records in fragments, and their bytes;
* `Decode.Shows`: the decode buffer is set to the data of a record, without fragments;
* what the functions do with the bytes of a fragment.

* `rpcRound_spec`: a round keeps the data for the next packet, or takes a fragment;
* `rpcLoop_spec`: the rounds of a packet stay at the starts of fragments.
-/

namespace Snort.Rpc

section

/-! ### Records -/

/-- A record: the data of its fragments. -/
structure Record where
  fragments : List (List UInt8)
  nonempty : fragments ≠ []
  pos : ∀ data ∈ fragments, data ≠ []
  fits : fragments.flatten.length ≤ rpcMaxBufSize

/-- The data of a record. -/
def Record.data (r : Record) : List UInt8 := r.fragments.flatten

/-- A fragment of the record with some number. -/
structure Fragment where
  last : Bool
  data : List UInt8
  record : ℕ

/-- The header of a fragment. -/
def fragHeader (last : Bool) (len : ℕ) : List UInt8 := htonl ((if last then 2 ^ 31 else 0) + len)

/-- The bytes of a fragment. -/
def Fragment.bytes (f : Fragment) : List Byte :=
  (fragHeader f.last f.data.length ++ f.data).map fun value => ⟨value, f.record⟩

def recordFragments (record : ℕ) : List (List UInt8) → List Fragment
  | [] => []
  | data :: rest => ⟨rest.isEmpty, data, record⟩ :: recordFragments record rest

/-- The fragments of records with consecutive numbers. -/
def streamFragments : ℕ → List Record → List Fragment
  | _, [] => []
  | record, r :: records => recordFragments record r.fragments ++ streamFragments (record + 1) records

/-- The bytes of some fragments. -/
def fragmentBytes (fs : List Fragment) : List Byte := fs.flatMap Fragment.bytes

/-- The stream of some records. -/
def stream (records : List Record) : List Byte := fragmentBytes (streamFragments 0 records)

/-- The decode buffer is set to one fragment with `data`. -/
def Decode.Shows (decode : Decode) (data : List UInt8) : Prop :=
  decode.len = data.length + 4 ∧ decode.data.take (data.length + 4) = fragHeader true data.length ++ data

/-! ### Headers -/

theorem ntohl_htonl {n : ℕ} (hn : n < 2 ^ 32) (rest : List UInt8) : ntohl (htonl n ++ rest) = n := by
  simp only [ntohl, htonl, List.cons_append, List.nil_append, List.getD_cons_zero, List.getD_cons_succ,
    UInt8.toNat_ofNat']
  omega

@[simp] theorem length_fragHeader (last : Bool) (len : ℕ) : (fragHeader last len).length = 4 := rfl

/-- A fragment is not empty, and not longer than a record. -/
def Fragment.Fits (f : Fragment) : Prop := f.data ≠ [] ∧ f.data.length ≤ rpcMaxBufSize

variable {f : Fragment} {s : RpcSsnData}

theorem values_bytes (f : Fragment) : values f.bytes = fragHeader f.last f.data.length ++ f.data := by
  simp only [values, Fragment.bytes, List.map_map]
  exact List.map_id _

@[simp] theorem length_bytes (f : Fragment) : f.bytes.length = 4 + f.data.length := by
  simp [Fragment.bytes]

@[simp] theorem length_values (data : List Byte) : (values data).length = data.length := List.length_map _

theorem Fragment.Fits.length_lt (hf : f.Fits) : f.data.length < 2 ^ 31 :=
  lt_of_le_of_lt hf.2 (by decide)

theorem rpcFragLen_bytes (hf : f.Fits) (rest : List Byte) : rpcFragLen (f.bytes ++ rest) = f.data.length := by
  have hlt := hf.length_lt
  unfold rpcFragLen
  rw [values, List.map_append, ← values, values_bytes, fragHeader, List.append_assoc, ntohl_htonl]
  · cases f.last
    · simp only [Bool.false_eq_true, ↓reduceIte]
      omega
    · simp only [↓reduceIte]
      omega
  · cases f.last
    · simp only [Bool.false_eq_true, ↓reduceIte]
      omega
    · simp only [↓reduceIte]
      omega

theorem lastFrag_bytes (hf : f.Fits) (rest : List Byte) : lastFrag (f.bytes ++ rest) = f.last := by
  have hle : f.data.length ≤ 256 := hf.2
  unfold lastFrag
  rw [values, List.map_append, ← values, values_bytes, fragHeader]
  simp only [htonl, List.cons_append, List.getD_cons_zero]
  cases f.last
  · have hzero : ((if false = true then 2 ^ 31 else 0) + f.data.length) / 2 ^ 24 = 0 := by
      simp only [Bool.false_eq_true, ↓reduceIte]
      omega
    rw [hzero]
    decide
  · have hbit : ((if true = true then 2 ^ 31 else 0) + f.data.length) / 2 ^ 24 = 128 := by
      simp only [↓reduceIte]
      omega
    rw [hbit]
    decide

/-- The length of a fragment is in its first four bytes. -/
theorem rpcFragLen_append {data : List Byte} (hdata : 4 ≤ data.length) (rest : List Byte) :
    rpcFragLen (data ++ rest) = rpcFragLen data := by
  have hget : ∀ i < 4, (values data ++ values rest).getD i 0 = (values data).getD i 0 := by
    intro i hi
    rw [List.getD_eq_getElem?_getD, List.getD_eq_getElem?_getD,
      List.getElem?_append_left (by rw [length_values]; omega)]
  unfold rpcFragLen ntohl
  rw [values, List.map_append, ← values, ← values, hget 0 (by omega), hget 1 (by omega), hget 2 (by omega),
    hget 3 (by omega)]

/-! ### What is shown -/

/-- A fragment, as it was sent. -/
def Fragment.decode (f : Fragment) : Decode := ⟨values f.bytes, f.bytes.length⟩

/-- The data of `RpcPrepFrag`. -/
def fragDecode (frag : List Byte) : Decode :=
  ⟨(htonl frag.length).modifyHead (fun byte => byte ||| 0x80) ++ values frag, frag.length⟩

/-- A fragment as it was sent shows its own data only. -/
theorem length_of_shows {data : List UInt8} (h : f.decode.Shows data) : data.length = f.data.length := by
  have hlen := h.1
  simp only [Fragment.decode, length_bytes] at hlen
  omega

/-- A header with the last-fragment bit set. -/
theorem ntohl_marked {n : ℕ} (hn : n < 2 ^ 24) (rest : List UInt8) :
    ntohl ((htonl n).modifyHead (fun byte => byte ||| 0x80) ++ rest) = 2 ^ 31 + n := by
  have hzero : n / 2 ^ 24 = 0 := by omega
  have hbit : (UInt8.ofNat 0 ||| 0x80).toNat = 128 := by decide
  simp only [htonl, List.modifyHead_cons, hzero, ntohl, List.cons_append, List.nil_append, List.getD_cons_zero,
    List.getD_cons_succ, UInt8.toNat_ofNat', hbit]
  omega

theorem ntohl_take {data : List UInt8} {k : ℕ} (hk : 4 ≤ k) : ntohl (data.take k) = ntohl data := by
  have hget : ∀ i < 4, (data.take k).getD i 0 = data.getD i 0 := by
    intro i hi
    rw [List.getD_eq_getElem?_getD, List.getD_eq_getElem?_getD, List.getElem?_take_of_lt (by omega)]
  unfold ntohl
  rw [hget 0 (by omega), hget 1 (by omega), hget 2 (by omega), hget 3 (by omega)]

/-- What shows some data has its length in the header. -/
theorem ntohl_of_shows {decode : Decode} {data : List UInt8} (hdata : data.length < 2 ^ 31)
    (h : decode.Shows data) : ntohl decode.data = 2 ^ 31 + data.length := by
  rw [← ntohl_take (le_add_of_nonneg_left (Nat.zero_le data.length)), h.2, fragHeader]
  exact ntohl_htonl (by simp only [↓reduceIte]; omega) _

/-- The data of `RpcPrepFrag` shows nothing: the header is not in the length. -/
theorem not_shows_fragDecode {frag : List Byte} (hfrag : frag.length < 2 ^ 24) (data : List UInt8) :
    ¬(fragDecode frag).Shows data := by
  intro h
  have hlen : frag.length = data.length + 4 := h.1
  have hheader := ntohl_of_shows (by omega) h
  simp only [fragDecode] at hheader
  rw [ntohl_marked hfrag] at hheader
  omega

/-- A part of a fragment shows nothing. -/
theorem not_shows_part (hf : f.Fits) {seg rest : List Byte} (hseg : seg ++ rest = f.bytes) (hrest : rest ≠ [])
    (data : List UInt8) : ¬Decode.Shows ⟨values seg, seg.length⟩ data := by
  intro h
  have hlen : seg.length = data.length + 4 := h.1
  have htotal := congrArg List.length hseg
  have hpos := List.length_pos_iff.2 hrest
  rw [List.length_append, length_bytes] at htotal
  have hfrag : rpcFragLen seg = f.data.length := by
    rw [← rpcFragLen_append (by omega) rest, hseg, ← rpcFragLen_bytes hf [], List.append_nil]
  have hle : f.data.length ≤ 256 := hf.2
  have hheader := ntohl_of_shows (by omega) h
  unfold rpcFragLen at hfrag
  simp only at hheader
  omega

/-! ### The functions on fragments -/

theorem rpcHandleFrag_bytes (hf : f.Fits) (s : RpcSsnData) (rest : List Byte) :
    ∃ frag, rpcHandleFrag s (f.bytes ++ rest) = some (f.last, { s with frag := frag }) ∧
      frag.data.length ≤ s.frag.data.length + f.data.length := by
  unfold rpcHandleFrag
  rw [lastFrag_bytes hf, rpcFragLen_bytes hf]
  by_cases hlast : s.frag.data = [] ∧ f.last = true
  · rw [if_pos hlast, hlast.2]
    exact ⟨s.frag, rfl, Nat.le_add_right _ _⟩
  · obtain ⟨frag, hadd, hdata⟩ := rpcBufAdd_eq s.frag (((f.bytes ++ rest).drop 4).take f.data.length)
    rw [if_neg hlast, hadd]
    refine ⟨frag, rfl, ?_⟩
    rw [hdata, List.length_append]
    exact Nat.add_le_add_left (List.length_take_le _ _) _

theorem rpcPrepRaw_bytes (hf : f.Fits) (rest : List Byte) :
    rpcPrepRaw (f.bytes ++ rest) f.data.length = some f.decode := by
  have hle : f.data.length ≤ 256 := hf.2
  have hcheck : SafeMemCheck (rpcFragHdrSize + f.data.length) decodeBlen := by
    unfold SafeMemCheck rpcFragHdrSize decodeBlen
    omega
  have htake : (f.bytes ++ rest).take (rpcFragHdrSize + f.data.length) = f.bytes :=
    List.take_left' (length_bytes f)
  have hmod : (rpcFragHdrSize + f.data.length) % 2 ^ 16 = f.bytes.length := by
    rw [length_bytes, rpcFragHdrSize]
    omega
  unfold rpcPrepRaw
  rw [if_pos hcheck, htake, hmod]
  rfl

/-- The data of the fragments that fits in the decode buffer. -/
theorem rpcPrepFrag_eq (hfrag : s.frag.data ≠ []) (hroom : s.frag.data.length ≤ decodeBlen - 4) :
    ∃ frag, rpcPrepFrag s = some (fragDecode s.frag.data, { s with frag := frag }) ∧
      frag.data.length ≤ rpcMaxBufSize := by
  have hmod : s.frag.data.length % 2 ^ 16 = s.frag.data.length := by
    unfold decodeBlen at hroom
    omega
  unfold rpcPrepFrag
  simp only
  rw [if_pos ⟨List.length_pos_iff.2 hfrag, hroom⟩, hmod]
  split_ifs with hmax
  · exact ⟨.clean, rfl, Nat.zero_le _⟩
  · exact ⟨s.frag, rfl, not_lt.1 hmax⟩

theorem rpcPrepSeg_short (hseg : s.seg.data ≠ []) (hmax : s.seg.data.length ≤ rpcMaxBufSize) :
    rpcPrepSeg s = some (⟨values s.seg.data, s.seg.data.length⟩, s) := by
  have hmax' : s.seg.data.length ≤ 256 := hmax
  have hcheck : SafeMemCheck s.seg.data.length decodeBlen := by
    refine ⟨List.length_pos_iff.2 hseg, ?_⟩
    unfold decodeBlen
    omega
  have hmod : s.seg.data.length % 2 ^ 16 = s.seg.data.length := by omega
  unfold rpcPrepSeg
  simp only [if_pos hcheck, hmod]
  rw [if_neg (not_lt.2 hmax)]

/-- Behind a long part of a fragment, the rest of it is ignored. -/
theorem rpcPrepSeg_long (hmax : rpcMaxBufSize < s.seg.data.length) (hroom : s.seg.data.length ≤ 4 + s.fragLen)
    (hlen : s.fragLen ≤ rpcMaxBufSize) :
    rpcPrepSeg s = some (⟨values s.seg.data, s.seg.data.length⟩,
      { s with ignore := 4 + s.fragLen - s.seg.data.length, seg := .clean }) := by
  have hlen' : s.fragLen ≤ 256 := hlen
  have hcheck : SafeMemCheck s.seg.data.length decodeBlen := by
    refine ⟨lt_of_le_of_lt (Nat.zero_le _) hmax, ?_⟩
    unfold decodeBlen
    omega
  have hmod : s.seg.data.length % 2 ^ 16 = s.seg.data.length := by omega
  have hignore : (4 + s.fragLen + 2 ^ 32 - s.seg.data.length) % 2 ^ 32 = 4 + s.fragLen - s.seg.data.length := by
    omega
  unfold rpcPrepSeg
  simp only [if_pos hcheck, hmod, hignore]
  rw [if_pos hmax]

end

/-! ## The rounds of a packet -/

variable {s : RpcSsnData} {data later rest : List Byte} {f : Fragment} {fs : List Fragment} {dsize : ℕ} {out : Outcome}

@[simp] theorem fragmentBytes_cons (f : Fragment) (fs : List Fragment) :
    fragmentBytes (f :: fs) = f.bytes ++ fragmentBytes fs := rfl

@[simp] theorem fragmentBytes_append (fs fs' : List Fragment) :
    fragmentBytes (fs ++ fs') = fragmentBytes fs ++ fragmentBytes fs' := List.flatMap_append

/-- The length of a fragment is known from the first bytes of the stream. -/
theorem rpcFragLen_head (hf : f.Fits) (hdata : 4 ≤ data.length) (h : data ++ later = f.bytes ++ rest) :
    rpcFragLen data = f.data.length := by
  rw [← rpcFragLen_append hdata later, h, rpcFragLen_bytes hf]

/-! ### A round -/

/-- The data is kept for the next packet. -/
structure Kept (s : RpcSsnData) (data : List Byte) (out : Outcome) : Prop where
  rest : out.rest = none
  detected : out.detected = none
  ignore : out.ssn.ignore = s.ignore
  nseq : out.ssn.nseq = s.nseq
  frag : out.ssn.frag = s.frag
  seg : out.ssn.seg.data = s.seg.data ++ data
  header : 4 ≤ (s.seg.data ++ data).length → out.ssn.fragLen = rpcFragLen (s.seg.data ++ data)

/-- A fragment is taken, up to `rest`. -/
structure Taken (s : RpcSsnData) (f : Fragment) (rest : List Byte) (out : Outcome) : Prop where
  rest : out.rest = some rest
  ignore : out.ssn.ignore = 0
  nseq : out.ssn.nseq = s.nseq
  seg : out.ssn.seg.data = []
  frag : out.ssn.frag.data.length ≤ s.frag.data.length + f.data.length
  detected : ∀ decode, out.detected = some decode →
    decode = f.decode ∨ ∃ frag, frag.length < 2 ^ 24 ∧ decode = fragDecode frag

theorem keepData_kept
    (hheader : 4 ≤ (s.seg.data ++ data).length → s.fragLen = rpcFragLen (s.seg.data ++ data)) :
    ∃ out, keepData s data = some out ∧ Kept s data out := by
  obtain ⟨seg, hadd, hseg⟩ := rpcBufAdd_eq s.seg data
  unfold keepData
  rw [hadd]
  exact ⟨_, rfl, rfl, rfl, rfl, rfl, rfl, hseg, hheader⟩

theorem rawRound_taken (dsize : ℕ) (hf : f.Fits) (hignore : s.ignore = 0) (hseg : s.seg.data = []) (rest : List Byte) :
    ∃ out, rawRound dsize s (f.bytes ++ rest) = some out ∧ Taken s f rest out := by
  have hlen : (f.bytes ++ rest).length = 4 + f.data.length + rest.length := by
    rw [List.length_append, length_bytes]
  have hdrop : (f.bytes ++ rest).drop (rpcFragHdrSize + f.data.length) = rest :=
    List.drop_left' (length_bytes f)
  obtain ⟨frag, hhandle, hfrag⟩ := rpcHandleFrag_bytes hf { s with fragLen := f.data.length } rest
  unfold rawRound
  simp only
  rw [rpcFragLen_bytes hf, if_neg (by rw [hlen, rpcFragHdrSize]; omega),
    if_neg (by rw [hlen, rpcFragHdrSize]; omega), hhandle, hdrop]
  simp only [Option.bind_some]
  split_ifs with hdetect
  · rw [rpcPrepRaw_bytes hf]
    exact ⟨_, rfl, rfl, hignore, rfl, hseg, hfrag, fun decode h => .inl (Option.some.inj h).symm⟩
  · exact ⟨_, rfl, rfl, hignore, rfl, hseg, hfrag, fun decode h => absurd h (Option.some_ne_none _).symm⟩

theorem prepDefrag_spec (hf : f.Fits) (hseg : s.seg.data = f.bytes) (hlen : s.fragLen = f.data.length)
    (hignore : s.ignore = 0) (hroom : s.frag.data.length ≤ decodeBlen - 4) :
    ∃ decode s', prepDefrag s = some (decode, s') ∧ s'.ignore = 0 ∧ s'.nseq = s.nseq ∧
      (decode = f.decode ∨ ∃ frag, frag.length < 2 ^ 24 ∧ decode = fragDecode frag) := by
  unfold prepDefrag
  by_cases hfrag : s.frag.data = []
  · have hseglen : s.seg.data.length = 4 + s.fragLen := by rw [hseg, length_bytes, hlen]
    have hne : s.seg.data ≠ [] := List.length_pos_iff.1 (by omega)
    have hdecode : (⟨values s.seg.data, s.seg.data.length⟩ : Decode) = f.decode := by rw [hseg]; rfl
    have hmax : s.fragLen ≤ rpcMaxBufSize := by
      rw [hlen]
      exact hf.2
    rw [if_neg (not_not.2 hfrag)]
    rcases le_or_gt s.seg.data.length rpcMaxBufSize with hshort | hlong
    · rw [rpcPrepSeg_short hne hshort, hdecode]
      exact ⟨_, _, rfl, hignore, rfl, .inl rfl⟩
    · rw [rpcPrepSeg_long hlong (le_of_eq hseglen) hmax, hdecode]
      exact ⟨_, _, rfl, by simp only [hseglen, Nat.sub_self], rfl, .inl rfl⟩
  · obtain ⟨frag, hprep, -⟩ := rpcPrepFrag_eq hfrag hroom
    rw [if_pos hfrag, hprep]
    refine ⟨_, _, rfl, hignore, rfl, .inr ⟨s.frag.data, ?_, rfl⟩⟩
    unfold decodeBlen at hroom
    omega

theorem segComplete_taken (hf : f.Fits) (hseg : s.seg.data = f.bytes) (hlen : s.fragLen = f.data.length)
    (hignore : s.ignore = 0) (hroom : s.frag.data.length + rpcMaxBufSize ≤ decodeBlen - 4) (rest : List Byte) :
    ∃ out, segComplete s rest = some out ∧ Taken s f rest out := by
  obtain ⟨frag, hhandle, hfrag⟩ := rpcHandleFrag_bytes hf s []
  rw [List.append_nil] at hhandle
  unfold segComplete
  rw [hseg, hhandle]
  simp only [Option.bind_some]
  split_ifs with hlast
  · have hle := hf.2
    obtain ⟨decode, s', hprep, hignore', hnseq, hdecode⟩ :=
      @prepDefrag_spec { s with frag := frag } f hf hseg hlen hignore (by simp only; omega)
    rw [hprep]
    refine ⟨_, rfl, rfl, hignore', hnseq, rfl, Nat.zero_le _, fun decode' h => ?_⟩
    rw [← Option.some.inj h]
    exact hdecode
  · exact ⟨_, rfl, rfl, hignore, rfl, rfl, hfrag, fun decode h => absurd h (Option.some_ne_none _).symm⟩

/-- The part of a second list that completes the first list to a given one. -/
theorem take_drop_of_append {α : Type*} {a b x y : List α} (h : a ++ b = x ++ y) (hle : a.length ≤ x.length) :
    a ++ b.take (x.length - a.length) = x ∧ b.drop (x.length - a.length) = y := by
  rcases List.append_eq_append_iff.1 h with ⟨c, rfl, rfl⟩ | ⟨c, rfl, rfl⟩
  · rw [List.length_append, Nat.add_sub_cancel_left, List.take_left, List.drop_left]
    exact ⟨rfl, rfl⟩
  · rw [List.length_append] at hle
    obtain rfl := List.length_eq_zero_iff.1 (show c.length = 0 by omega)
    simp

theorem segBody_taken (hf : f.Fits) (hseg : 4 ≤ s.seg.data.length) (hlen : s.fragLen = f.data.length)
    (hle : s.seg.data.length ≤ f.bytes.length) (hignore : s.ignore = 0)
    (hroom : s.frag.data.length + rpcMaxBufSize ≤ decodeBlen - 4)
    (h : s.seg.data ++ data = f.bytes ++ rest) :
    ∃ out, segBody s data = some out ∧ Taken s f rest out := by
  obtain ⟨htake, hdrop⟩ := take_drop_of_append h hle
  have hneed : s.fragLen - (s.seg.data.length - rpcFragHdrSize) = f.bytes.length - s.seg.data.length := by
    rw [hlen, length_bytes, rpcFragHdrSize]
    omega
  have htotal := congrArg List.length h
  rw [List.length_append, List.length_append] at htotal
  obtain ⟨seg, hadd, hdata⟩ := rpcBufAdd_eq s.seg (data.take (f.bytes.length - s.seg.data.length))
  obtain ⟨out, hout, htaken⟩ :=
    @segComplete_taken { s with seg := seg } f hf (hdata.trans htake) hlen hignore hroom rest
  refine ⟨out, ?_, htaken.rest, htaken.ignore, htaken.nseq, htaken.seg, htaken.frag, htaken.detected⟩
  unfold segBody
  simp only
  rw [hneed, if_neg (by omega), hadd, hdrop]
  exact hout

theorem segBody_kept (hf : f.Fits) (hseg : 4 ≤ s.seg.data.length) (hlen : s.fragLen = f.data.length)
    (hshort : (s.seg.data ++ data).length < f.bytes.length)
    (h : s.seg.data ++ data ++ later = f.bytes ++ rest) :
    ∃ out, segBody s data = some out ∧ Kept s data out := by
  rw [List.length_append, length_bytes] at hshort
  unfold segBody
  simp only
  rw [if_pos (by rw [hlen, rpcFragHdrSize]; omega)]
  exact keepData_kept fun hdata => hlen.trans (rpcFragLen_head hf hdata h).symm

theorem rawRound_kept (dsize : ℕ) (hf : f.Fits) (hseg : s.seg.data = []) (hshort : data.length < f.bytes.length)
    (h : data ++ later = f.bytes ++ rest) : ∃ out, rawRound dsize s data = some out ∧ Kept s data out := by
  unfold rawRound
  by_cases hheader : data.length < rpcFragHdrSize
  · rw [if_pos hheader]
    apply keepData_kept
    intro hdata
    rw [hseg, List.nil_append] at hdata
    exact absurd hheader (not_lt.2 hdata)
  · have hlen := rpcFragLen_head hf (not_lt.1 hheader) h
    rw [length_bytes] at hshort
    rw [if_neg hheader]
    simp only
    rw [hlen, if_pos (show data.length < rpcFragHdrSize + f.data.length from hshort)]
    obtain ⟨out, hout, hkept⟩ := @keepData_kept { s with fragLen := f.data.length } data
      fun _ => by simp only [hseg, List.nil_append, hlen]
    exact ⟨out, hout, hkept.rest, hkept.detected, hkept.ignore, hkept.nseq, hkept.frag, hkept.seg, hkept.header⟩

/-- The header is completed from the data. -/
theorem segRound_header (hshort : s.seg.data.length < 4) (hdata : 4 ≤ (s.seg.data ++ data).length) :
    ∃ seg, segRound s data =
        segBody { s with seg := seg, fragLen := rpcFragLen seg.data } (data.drop (4 - s.seg.data.length)) ∧
      seg.data.length = 4 ∧ seg.data ++ data.drop (4 - s.seg.data.length) = s.seg.data ++ data := by
  obtain ⟨seg, hadd, hseg⟩ := rpcBufAdd_eq s.seg (data.take (4 - s.seg.data.length))
  rw [List.length_append] at hdata
  refine ⟨seg, ?_, ?_, ?_⟩
  · unfold segRound
    simp only
    rw [if_pos (show s.seg.data.length < rpcFragHdrSize from hshort),
      if_neg (show ¬data.length < rpcFragHdrSize - s.seg.data.length by rw [rpcFragHdrSize]; omega),
      rpcFragHdrSize, hadd, Option.bind_some]
  · rw [hseg, List.length_append, List.length_take]
    omega
  · rw [hseg, List.append_assoc, List.take_append_drop]

theorem segRound_kept (hf : f.Fits) (hheader : 4 ≤ s.seg.data.length → s.fragLen = rpcFragLen s.seg.data)
    (hshort : (s.seg.data ++ data).length < f.bytes.length)
    (h : s.seg.data ++ data ++ later = f.bytes ++ rest) :
    ∃ out, segRound s data = some out ∧ Kept s data out := by
  by_cases hseg : s.seg.data.length < 4
  · by_cases hdata : (s.seg.data ++ data).length < 4
    · rw [List.length_append] at hdata
      unfold segRound
      simp only
      rw [if_pos (show s.seg.data.length < rpcFragHdrSize from hseg),
        if_pos (show data.length < rpcFragHdrSize - s.seg.data.length by rw [rpcFragHdrSize]; omega)]
      apply keepData_kept
      intro hle
      rw [List.length_append] at hle
      omega
    · obtain ⟨seg, hround, hfour, hall⟩ := segRound_header hseg (not_lt.1 hdata)
      have hhead : seg.data ++ data.drop (4 - s.seg.data.length) ++ later = f.bytes ++ rest := by rw [hall, h]
      have hlen : rpcFragLen seg.data = f.data.length := by
        rw [List.append_assoc] at hhead
        exact rpcFragLen_head hf (le_of_eq hfour.symm) hhead
      obtain ⟨out, hout, hkept⟩ :=
        @segBody_kept { s with seg := seg, fragLen := rpcFragLen seg.data } _ later rest f hf
          (le_of_eq hfour.symm) hlen (by simp only [hall]; exact hshort) hhead
      rw [hround]
      exact ⟨out, hout, hkept.rest, hkept.detected, hkept.ignore, hkept.nseq, hkept.frag,
        hkept.seg.trans hall, by rw [← hall]; exact hkept.header⟩
  · have hfour := not_lt.1 hseg
    unfold segRound
    rw [if_neg (show ¬s.seg.data.length < rpcFragHdrSize from hseg)]
    rw [List.append_assoc] at h
    exact segBody_kept hf hfour ((hheader hfour).trans (rpcFragLen_head hf hfour h)) hshort
      (by rw [List.append_assoc]; exact h)

theorem segRound_taken (hf : f.Fits) (hheader : 4 ≤ s.seg.data.length → s.fragLen = rpcFragLen s.seg.data)
    (hle : s.seg.data.length ≤ f.bytes.length) (hignore : s.ignore = 0)
    (hroom : s.frag.data.length + rpcMaxBufSize ≤ decodeBlen - 4)
    (h : s.seg.data ++ data = f.bytes ++ rest) :
    ∃ out, segRound s data = some out ∧ Taken s f rest out := by
  by_cases hseg : s.seg.data.length < 4
  · have hdata : 4 ≤ (s.seg.data ++ data).length := by
      rw [h, List.length_append, length_bytes]
      omega
    obtain ⟨seg, hround, hfour, hall⟩ := segRound_header hseg hdata
    have hhead : seg.data ++ data.drop (4 - s.seg.data.length) = f.bytes ++ rest := by rw [hall, h]
    have hlen : rpcFragLen seg.data = f.data.length := rpcFragLen_head hf (le_of_eq hfour.symm) hhead
    obtain ⟨out, hout, htaken⟩ :=
      @segBody_taken { s with seg := seg, fragLen := rpcFragLen seg.data } _ rest f hf
        (le_of_eq hfour.symm) hlen (by simp only [hfour, length_bytes]; omega) hignore hroom hhead
    rw [hround]
    exact ⟨out, hout, htaken.rest, htaken.ignore, htaken.nseq, htaken.seg, htaken.frag, htaken.detected⟩
  · have hfour := not_lt.1 hseg
    unfold segRound
    rw [if_neg (show ¬s.seg.data.length < rpcFragHdrSize from hseg)]
    exact segBody_taken hf hfour ((hheader hfour).trans (rpcFragLen_head hf hfour h)) hle hignore hroom h

/-- A round keeps the data, which ends within a fragment, or takes the fragment. -/
theorem rpcRound_spec (dsize : ℕ) (hf : f.Fits) (hignore : s.ignore = 0)
    (hroom : s.frag.data.length + rpcMaxBufSize ≤ decodeBlen - 4)
    (hle : s.seg.data.length ≤ f.bytes.length)
    (hheader : 4 ≤ s.seg.data.length → s.fragLen = rpcFragLen s.seg.data)
    (h : s.seg.data ++ data ++ later = f.bytes ++ rest) :
    ∃ out, rpcRound dsize s data = some out ∧
      ((s.seg.data ++ data).length < f.bytes.length ∧ Kept s data out ∨
        ∃ tail, s.seg.data ++ data = f.bytes ++ tail ∧ Taken s f tail out) := by
  unfold rpcRound
  by_cases hshort : (s.seg.data ++ data).length < f.bytes.length
  · by_cases hseg : s.seg.data = []
    · rw [if_pos hseg]
      obtain ⟨out, hout, hkept⟩ := rawRound_kept dsize hf hseg (by rwa [hseg] at hshort) (by rwa [hseg] at h)
      exact ⟨out, hout, .inl ⟨hshort, hkept⟩⟩
    · rw [if_neg hseg]
      obtain ⟨out, hout, hkept⟩ := segRound_kept hf hheader hshort h
      exact ⟨out, hout, .inl ⟨hshort, hkept⟩⟩
  · obtain ⟨tail, htail⟩ : f.bytes <+: s.seg.data ++ data :=
      List.prefix_of_prefix_length_le ⟨rest, h.symm⟩ (List.prefix_append _ later) (not_lt.1 hshort)
    by_cases hseg : s.seg.data = []
    · obtain rfl : f.bytes ++ tail = data := by rw [htail, hseg, List.nil_append]
      rw [if_pos hseg]
      obtain ⟨out, hout, htaken⟩ := rawRound_taken dsize hf hignore hseg tail
      exact ⟨out, hout, .inr ⟨tail, htail.symm, htaken⟩⟩
    · rw [if_neg hseg]
      obtain ⟨out, hout, htaken⟩ := segRound_taken hf hheader hle hignore hroom htail.symm
      exact ⟨out, hout, .inr ⟨tail, htail.symm, htaken⟩⟩

/-! ### The loop -/

theorem rpcLoop_leave (hdata : data ≠ []) (h : rpcRound dsize s data = some out) (hrest : out.rest = none) :
    rpcLoop dsize s data = some ([out.round s data], out.ssn) := by
  rw [rpcLoop, if_neg hdata]
  split
  · rename_i hnone
    exact absurd (hnone.symm.trans h) (Option.some_ne_none _).symm
  · rename_i out' hout
    obtain rfl := Option.some.inj (hout.symm.trans h)
    split
    · rfl
    · rename_i hsome
      exact absurd (hsome.symm.trans hrest) (Option.some_ne_none _)

theorem rpcLoop_next (hdata : data ≠ []) (h : rpcRound dsize s data = some out) (hrest : out.rest = some rest) :
    rpcLoop dsize s data = (rpcLoop dsize out.ssn rest).map fun r => (out.round s data :: r.1, r.2) := by
  rw [rpcLoop, if_neg hdata]
  split
  · rename_i hnone
    exact absurd (hnone.symm.trans h) (Option.some_ne_none _).symm
  · rename_i out' hout
    obtain rfl := Option.some.inj (hout.symm.trans h)
    split
    · rename_i hnone
      exact absurd (hnone.symm.trans hrest) (Option.some_ne_none _).symm
    · rename_i rest' hsome
      obtain rfl := Option.some.inj (hsome.symm.trans hrest)
      rfl

/-- What is buffered goes on with the data of the packet and what comes `later`, in whole fragments. -/
structure Aligned (s : RpcSsnData) (data later : List Byte) (fs : List Fragment) : Prop where
  ignore : s.ignore = 0
  bytes : s.seg.data ++ data ++ later = fragmentBytes fs
  part : s.seg.data ≠ [] → ∃ f fs', fs = f :: fs' ∧ s.seg.data.length < f.bytes.length
  header : 4 ≤ s.seg.data.length → s.fragLen = rpcFragLen s.seg.data

/-- What `Detect` sees in a round that ends with a fragment: the fragment as it was sent, or the fragment buffer. -/
def GoodRound (fs : List Fragment) (total : ℕ) (round : Round) : Prop :=
  ∀ decode, round.detected = some decode →
    ∃ f fs', f :: fs' <:+ fs ∧ round.stop + (fragmentBytes fs').length = total ∧
      (decode = f.decode ∨ ∃ frag, frag.length < 2 ^ 24 ∧ decode = fragDecode frag)

/-- What the fragment buffer may still take: a fragment brings four bytes more than it adds to it. -/
def budget (s : RpcSsnData) (data : List Byte) : ℕ :=
  65 * s.frag.data.length + 64 * data.length + if s.seg.data = [] then 0 else 65 * rpcMaxBufSize

/-- The most that a packet brings. -/
def maxBudget : ℕ := 65 * rpcMaxBufSize + 64 * 65535 + 65 * rpcMaxBufSize

theorem Aligned.next {tail : List Byte} (h : Aligned s data later (f :: fs))
    (htail : s.seg.data ++ data = f.bytes ++ tail) (htaken : Taken s f tail out) :
    Aligned out.ssn tail later fs := by
  refine ⟨htaken.ignore, ?_, fun hne => absurd htaken.seg hne, fun hfour => ?_⟩
  · have hbytes := h.bytes
    rw [htail, List.append_assoc, fragmentBytes_cons] at hbytes
    rw [htaken.seg, List.nil_append]
    exact List.append_cancel_left hbytes
  · rw [htaken.seg] at hfour
    exact absurd hfour (by simp)

theorem budget_next {tail : List Byte} (hf : f.Fits) (hseg : s.seg.data.length ≤ f.bytes.length)
    (htail : s.seg.data ++ data = f.bytes ++ tail) (htaken : Taken s f tail out) :
    budget out.ssn tail ≤ budget s data := by
  have hle : f.data.length ≤ rpcMaxBufSize := hf.2
  have hfrag := htaken.frag
  have hlen := congrArg List.length htail
  rw [List.length_append, List.length_append, length_bytes] at hlen
  rw [length_bytes] at hseg
  unfold budget
  rw [if_pos htaken.seg]
  unfold rpcMaxBufSize at *
  split_ifs with hnil
  · rw [hnil, List.length_nil] at hlen
    omega
  · omega

/-- Within the budget, the fragment buffer fits in the decode buffer, also with a further fragment. -/
theorem room_of_budget (h : budget s data ≤ maxBudget) : s.frag.data.length + rpcMaxBufSize ≤ decodeBlen - 4 := by
  unfold budget maxBudget rpcMaxBufSize at h
  unfold rpcMaxBufSize decodeBlen
  omega

/-- The fragment at the start. -/
theorem Aligned.exists_cons (h : Aligned s data later fs) (hdata : data ≠ []) :
    ∃ f fs', fs = f :: fs' ∧ s.seg.data.length ≤ f.bytes.length := by
  by_cases hseg : s.seg.data = []
  · cases fs with
    | nil =>
      have hnil := h.bytes
      rw [hseg, List.nil_append] at hnil
      exact absurd (List.append_eq_nil_iff.1 hnil).1 hdata
    | cons f fs' => exact ⟨f, fs', rfl, by rw [hseg]; exact Nat.zero_le _⟩
  · obtain ⟨f, fs', rfl, hlt⟩ := h.part hseg
    exact ⟨f, fs', rfl, le_of_lt hlt⟩

theorem GoodRound.of_suffix {fs' : List Fragment} {total : ℕ} {round : Round} (hfs : fs' <:+ fs)
    (h : GoodRound fs' total round) : GoodRound fs total round := by
  intro decode hdecode
  obtain ⟨f, rest, hsuffix, hstop, hshown⟩ := h decode hdecode
  exact ⟨f, rest, hsuffix.trans hfs, hstop, hshown⟩

/-- The rounds of a packet stay at the starts of fragments. -/
theorem rpcLoop_spec (dsize : ℕ) (h : Aligned s data later fs) (hfs : ∀ f ∈ fs, f.Fits) (hbudget : budget s data ≤ maxBudget)
    (hnseq : data.length ≤ s.nseq) :
    ∃ rounds s', rpcLoop dsize s data = some (rounds, s') ∧ s'.nseq = s.nseq ∧
      s'.frag.data.length ≤ decodeBlen - 4 ∧
      (∃ fs', fs' <:+ fs ∧ Aligned s' [] later fs') ∧
      ∀ round ∈ rounds, GoodRound fs (s.nseq + later.length) round := by
  induction hwork : work s data using Nat.strong_induction_on generalizing s data fs with
  | _ k ih =>
    have hroom := room_of_budget hbudget
    by_cases hdata : data = []
    · obtain rfl := hdata
      refine ⟨[], s, ?_, rfl, by omega, ⟨fs, List.suffix_refl _, h⟩, fun _ hround => absurd hround List.not_mem_nil⟩
      rw [rpcLoop, if_pos rfl]
    obtain ⟨f, fs', rfl, hle⟩ := h.exists_cons hdata
    have hf := hfs f List.mem_cons_self
    obtain ⟨out, hout, ⟨hshort, hkept⟩ | ⟨tail, htail, htaken⟩⟩ :=
      rpcRound_spec dsize hf h.ignore hroom hle h.header h.bytes
    · refine ⟨_, _, rpcLoop_leave hdata hout hkept.rest, hkept.nseq, ?_, ⟨f :: fs', List.suffix_refl _, ?_⟩, ?_⟩
      · rw [hkept.frag]
        omega
      · refine ⟨hkept.ignore.trans h.ignore, ?_, fun _ => ⟨f, fs', rfl, by rw [hkept.seg]; exact hshort⟩, ?_⟩
        · rw [hkept.seg, List.append_nil]
          exact h.bytes
        · rw [hkept.seg]
          exact hkept.header
      · intro round hround decode hdecode
        obtain rfl := List.mem_singleton.1 hround
        exact absurd (hdecode.symm.trans hkept.detected) (Option.some_ne_none _)
    · have hnext := h.next htail htaken
      have hlen := congrArg List.length htail
      rw [List.length_append, List.length_append, length_bytes] at hlen
      rw [length_bytes] at hle
      obtain ⟨rounds, s', hloop, hnseq', hbudget', ⟨fs'', hfs'', haligned⟩, hrounds⟩ :=
        ih (work out.ssn tail) (by rw [← hwork]; exact (rpcRound_rest hout htaken.rest).2) hnext
          (fun f' hf' => hfs f' (List.mem_cons_of_mem _ hf'))
          ((budget_next hf (by rwa [length_bytes]) htail htaken).trans hbudget)
          (by rw [htaken.nseq]; omega) rfl
      refine ⟨out.round s data :: rounds, s', ?_, hnseq'.trans htaken.nseq, hbudget',
        ⟨fs'', hfs''.trans (List.suffix_cons _ _), haligned⟩, fun round hround => ?_⟩
      · rw [rpcLoop_next hdata hout htaken.rest, hloop]
        rfl
      rcases List.mem_cons.1 hround with rfl | hround
      · intro decode hdecode
        have htotal := congrArg List.length hnext.bytes
        rw [htaken.seg, List.nil_append, List.length_append] at htotal
        refine ⟨f, fs', List.suffix_refl _, ?_, htaken.detected decode hdecode⟩
        simp only [Outcome.round, htaken.rest, Option.getD_some]
        omega
      · have hgood := hrounds round hround
        rw [htaken.nseq] at hgood
        exact hgood.of_suffix (List.suffix_cons _ _)

end Snort.Rpc
