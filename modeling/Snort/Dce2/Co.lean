import Mathlib.Tactic

/-!
# Segments of connection-oriented PDUs

* `coFragLen`, `coHdrChecks`: what a common header says about its PDU;
* `coRound`, `coProcess`: the data of a packet is cut into PDUs, with a buffer for what goes on in the next one;
* `Event`: what is checked and decoded on the way.

A packet comes with the memory behind its data, for reads beyond its end.

* `Pdu`: a PDU that passes the checks, as long as its header says;
* `Sound`: packets in front of which no bad header is half buffered;
* **`coRun_pdus`**: the PDUs of a stream are decoded, however it is cut into packets;
* **`enough_coRun_iff`**: headers are checked where there is one, exactly if all packets are sound.
-/

namespace Snort.Dce2

section

/-! ### The common header -/

/-- `DceRpcCoHdr`: the bytes at a pointer. -/
abbrev CoHdr := ℕ → UInt8

/-- `sizeof(DceRpcCoHdr)`. -/
def coHdrSize : ℕ := 16

/-- `DCERPC_PDU_TYPE__MAX`. -/
def pduTypeMax : ℕ := 21

/-- `DceRpcByteOrder`: little endian. -/
def dceRpcByteOrder (value : UInt8) : Bool := value.toNat / 16 % 2 = 1

def dceRpcNtohs (first second : UInt8) (littleEndian : Bool) : ℕ :=
  if littleEndian then first.toNat + 256 * second.toNat else 256 * first.toNat + second.toNat

/-- `DceRpcCoFragLen`. -/
def coFragLen (hdr : CoHdr) : ℕ := dceRpcNtohs (hdr 8) (hdr 9) (dceRpcByteOrder (hdr 4))

/-- `DCE2_CoHdrChecks`, for success. -/
def coHdrChecks (hdr : CoHdr) : Bool :=
  coHdrSize ≤ coFragLen hdr ∧ hdr 0 = 5 ∧ hdr 1 = 0 ∧ (hdr 2).toNat < pduTypeMax

/-- The memory at some data, with other bytes beyond it. -/
def header (data : List UInt8) (beyond : ℕ → UInt8) : CoHdr :=
  fun i => data.getD i (beyond (i - data.length))

/-! ### Segmentation -/

/-- `DCE2_CoSeg`; a buffer that is not there is an empty one. -/
structure CoSeg where
  fragLen : ℕ
  buf : List UInt8
  deriving DecidableEq

/-- `DCE2_Ret`. -/
inductive Ret
  | error | seg | success
  deriving DecidableEq

/-- `DCE2_HandleSegmentation` at the end of the buffer: the status, the buffer and `data_used`. -/
def handleSegmentation (segBuf data : List UInt8) (needLen : ℕ) : Ret × List UInt8 × ℕ :=
  if needLen = 0 then (.error, segBuf, 0)
  else if needLen ≤ segBuf.length then (.success, segBuf, 0)
  else if data = [] then (.seg, segBuf, 0)
  else
    let copyLen := min (needLen - segBuf.length) data.length
    let segBuf' := segBuf ++ data.take copyLen
    (if segBuf'.length = needLen then .success else .seg, segBuf', copyLen)

/-- What happens to the bytes: a header is checked where so many bytes are available, a PDU is decoded in the packet,
or in the segmentation buffer. -/
inductive Event
  | hdrChecks (available : ℕ)
  | decode (pdu : List UInt8)
  | segDecode (pdu : List UInt8)
  deriving DecidableEq

/-- A buffered header has been checked, or was before: the PDU of `seg.fragLen` bytes is completed.  The last
component is the data left, or nothing when the loop is left. -/
def coBody (seg : CoSeg) (data : List UInt8) (dataUsed : ℕ) : List Event × CoSeg × Option (List UInt8) :=
  if seg.buf.length < seg.fragLen then
    let r := handleSegmentation seg.buf data seg.fragLen
    if r.1 = .success then
      ([.segDecode r.2.1], { seg with buf := [] }, if r.2.2 = 0 then none else some (data.drop r.2.2))
    else ([], { seg with buf := r.2.1 }, none)
  else ([.segDecode seg.buf], { seg with buf := [] }, if dataUsed = 0 then none else some data)

/-- A round of the loop with an empty buffer. -/
def coFast (beyond : ℕ → UInt8) (seg : CoSeg) (data : List UInt8) :
    List Event × CoSeg × Option (List UInt8) :=
  if data.length < coHdrSize then
    ([], { seg with buf := (handleSegmentation seg.buf data coHdrSize).2.1 }, none)
  else if coHdrChecks (header data beyond) = false then ([.hdrChecks data.length], seg, none)
  else
    let fragLen := coFragLen (header data beyond)
    if data.length < fragLen then
      ([.hdrChecks data.length],
        { fragLen := fragLen, buf := (handleSegmentation seg.buf data fragLen).2.1 }, none)
    else ([.hdrChecks data.length, .decode (data.take fragLen)], seg, some (data.drop fragLen))

/-- A round of the loop. -/
def coRound (beyond : ℕ → UInt8) (seg : CoSeg) (data : List UInt8) :
    List Event × CoSeg × Option (List UInt8) :=
  if seg.buf = [] then coFast beyond seg data
  else if seg.buf.length < coHdrSize then
    let r := handleSegmentation seg.buf data coHdrSize
    if r.1 = .success then
      if coHdrChecks (header r.2.1 fun _ => 0) = false then
        -- back to the start of the data, without what was buffered
        ([.hdrChecks r.2.1.length, .hdrChecks data.length], { seg with buf := [] },
          if coHdrChecks (header data beyond) = false then none else some data)
      else
        let r' := coBody ⟨coFragLen (header r.2.1 fun _ => 0), r.2.1⟩ (data.drop r.2.2) r.2.2
        (.hdrChecks r.2.1.length :: r'.1, r'.2)
    else ([], { seg with buf := r.2.1 }, none)
  else coBody seg data 0

/-! ### The loop -/

/-- What is left to do: the data twice, and the buffer. -/
def work (seg : CoSeg) (data : List UInt8) : ℕ :=
  2 * data.length + if seg.buf = [] then 0 else 1

variable {beyond : ℕ → UInt8} {seg seg' : CoSeg} {data data' : List UInt8} {evs : List Event}

theorem coBody_rest {dataUsed : ℕ} (h : coBody seg data dataUsed = (evs, seg', some data')) :
    seg'.buf = [] ∧ data'.length ≤ data.length := by
  unfold coBody at h
  simp only at h
  split_ifs at h with hbuf hsuccess hused hused'
  all_goals obtain ⟨-, rfl, hdata⟩ : _ ∧ _ ∧ _ := by simpa only [Prod.mk.injEq] using h
  · exact absurd hdata (by simp)
  · rw [← Option.some.inj hdata, List.length_drop]
    exact ⟨rfl, Nat.sub_le _ _⟩
  · exact absurd hdata (by simp)
  · exact absurd hdata (by simp)
  · rw [← Option.some.inj hdata]
    exact ⟨rfl, le_rfl⟩

theorem coHdrSize_le {hdr : CoHdr} (h : ¬coHdrChecks hdr = false) : coHdrSize ≤ coFragLen hdr :=
  (of_decide_eq_true (eq_true_of_ne_false h)).1

theorem coFast_rest (hbuf : seg.buf = []) (h : coFast beyond seg data = (evs, seg', some data')) :
    seg'.buf = [] ∧ data'.length < data.length := by
  unfold coFast at h
  simp only at h
  split_ifs at h with hshort hbad hlong
  all_goals obtain ⟨-, rfl, hdata⟩ : _ ∧ _ ∧ _ := by simpa only [Prod.mk.injEq] using h
  · exact absurd hdata (by simp)
  · exact absurd hdata (by simp)
  · exact absurd hdata (by simp)
  · have hpos := coHdrSize_le hbad
    unfold coHdrSize at hpos hshort
    rw [← Option.some.inj hdata, List.length_drop]
    exact ⟨hbuf, by omega⟩

/-- A round leaves less to do. -/
theorem coRound_rest (h : coRound beyond seg data = (evs, seg', some data')) :
    seg'.buf = [] ∧ work seg' data' < work seg data := by
  unfold coRound at h
  simp only at h
  unfold work
  split_ifs at h with hbuf hshort hsuccess hbad hbad'
  · obtain ⟨hbuf', hlt⟩ := coFast_rest hbuf h
    rw [if_pos hbuf', if_pos hbuf]
    exact ⟨hbuf', by omega⟩
  · exact absurd (Prod.mk.inj (Prod.mk.inj h).2).2 (by simp)
  · obtain ⟨-, rfl, hdata⟩ : _ ∧ _ ∧ _ := by simpa only [Prod.mk.injEq] using h
    rw [← Option.some.inj hdata, if_pos rfl, if_neg hbuf]
    exact ⟨rfl, by omega⟩
  · obtain ⟨hbuf', hle⟩ := coBody_rest (Prod.ext rfl (Prod.mk.inj h).2)
    rw [List.length_drop] at hle
    rw [if_pos hbuf', if_neg hbuf]
    exact ⟨hbuf', by omega⟩
  · exact absurd (Prod.mk.inj (Prod.mk.inj h).2).2 (by simp)
  · obtain ⟨hbuf', hle⟩ := coBody_rest h
    rw [if_pos hbuf', if_neg hbuf]
    exact ⟨hbuf', by omega⟩

/-- The loop of `DCE2_CoProcess`. -/
def coLoop (beyond : ℕ → UInt8) (seg : CoSeg) (data : List UInt8) : List Event × CoSeg :=
  if data = [] then ([], seg)
  else
    match h : coRound beyond seg data with
    | (evs, seg', none) => (evs, seg')
    | (evs, seg', some data') =>
      have := (coRound_rest h).2
      let r := coLoop beyond seg' data'
      (evs ++ r.1, r.2)
  termination_by work seg data

/-- The data of a packet, and the memory behind it. -/
structure Packet where
  data : List UInt8
  beyond : ℕ → UInt8

/-- `DCE2_CoProcess` when no packets were missed. -/
def coProcess (seg : CoSeg) (p : Packet) : List Event × CoSeg := coLoop p.beyond seg p.data

end

/-! ## PDUs out of packets -/

variable {beyond beyond' : ℕ → UInt8} {seg : CoSeg} {buf data rest : List UInt8} {need : ℕ} {hdr hdr' : CoHdr}

/-! ### Headers -/

theorem coFragLen_congr (h : ∀ i < coHdrSize, hdr i = hdr' i) : coFragLen hdr = coFragLen hdr' := by
  unfold coFragLen
  rw [h 8 (by decide), h 9 (by decide), h 4 (by decide)]

theorem coHdrChecks_congr (h : ∀ i < coHdrSize, hdr i = hdr' i) : coHdrChecks hdr = coHdrChecks hdr' := by
  unfold coHdrChecks
  rw [coFragLen_congr h, h 0 (by decide), h 1 (by decide), h 2 (by decide)]

/-- Two starts of one stream have the same header. -/
theorem header_congr {x y u v : List UInt8} (h : x ++ u = y ++ v) (hx : coHdrSize ≤ x.length)
    (hy : coHdrSize ≤ y.length) : ∀ i < coHdrSize, header x beyond i = header y beyond' i := by
  intro i hi
  have hxi : i < x.length := by omega
  have hyi : i < y.length := by omega
  have hxy : x[i]? = y[i]? := by
    rw [← @List.getElem?_append_left _ x u i hxi, h, List.getElem?_append_left hyi]
  unfold header
  rw [List.getD_eq_getElem?_getD, List.getD_eq_getElem?_getD, hxy, List.getElem?_eq_getElem hyi]
  rfl

/-! ### The buffer -/

theorem handleSegmentation_complete (hlt : buf.length < need) (hle : need ≤ buf.length + data.length) :
    handleSegmentation buf data need =
      (.success, buf ++ data.take (need - buf.length), need - buf.length) := by
  have hdata : data ≠ [] := by
    rintro rfl
    rw [List.length_nil] at hle
    omega
  have hmin : min (need - buf.length) data.length = need - buf.length := by omega
  have hlength : (buf ++ data.take (need - buf.length)).length = need := by
    rw [List.length_append, List.length_take, hmin]
    omega
  unfold handleSegmentation
  simp only [hmin]
  rw [if_neg (by omega), if_neg (by omega), if_neg hdata, if_pos hlength]

theorem handleSegmentation_more (h : buf.length + data.length < need) :
    handleSegmentation buf data need = (.seg, buf ++ data, data.length) := by
  unfold handleSegmentation
  rw [if_neg (by omega), if_neg (by omega)]
  by_cases hdata : data = []
  · rw [if_pos hdata, hdata, List.append_nil, List.length_nil]
  · have hmin : min (need - buf.length) data.length = data.length := by omega
    simp only [hmin, List.take_length]
    rw [if_neg hdata, if_neg]
    rw [List.length_append]
    omega

/-! ### The loop -/

theorem coLoop_nil : coLoop beyond seg [] = ([], seg) := by
  rw [coLoop, if_pos rfl]

theorem coLoop_none {evs : List Event} {seg' : CoSeg} (hdata : data ≠ [])
    (h : coRound beyond seg data = (evs, seg', none)) : coLoop beyond seg data = (evs, seg') := by
  rw [coLoop, if_neg hdata]
  split
  · next evs' seg'' h' =>
    rw [h] at h'
    obtain ⟨rfl, rfl, -⟩ : _ ∧ _ ∧ _ := by simpa only [Prod.mk.injEq] using h'
    rfl
  · next evs' seg'' data' h' =>
    rw [h] at h'
    exact absurd (Prod.mk.inj (Prod.mk.inj h').2).2 (by simp)

theorem coLoop_some {evs : List Event} {seg' : CoSeg} {data' : List UInt8} (hdata : data ≠ [])
    (h : coRound beyond seg data = (evs, seg', some data')) :
    coLoop beyond seg data = (evs ++ (coLoop beyond seg' data').1, (coLoop beyond seg' data').2) := by
  rw [coLoop, if_neg hdata]
  split
  · next evs' seg'' h' =>
    rw [h] at h'
    exact absurd (Prod.mk.inj (Prod.mk.inj h').2).2 (by simp)
  · next evs' seg'' data'' h' =>
    rw [h] at h'
    obtain ⟨rfl, rfl, hdata'⟩ : _ ∧ _ ∧ _ := by simpa only [Prod.mk.injEq] using h'
    rw [Option.some.inj hdata']

/-! ### Enough bytes for a header -/

/-- A header is checked where there are as many bytes. -/
def Enough : Event → Prop
  | .hdrChecks available => coHdrSize ≤ available
  | _ => True

/-- A bad header that the data completes in the buffer has another one behind its start in the data. -/
def Sound (seg : CoSeg) (data : List UInt8) : Prop :=
  seg.buf ≠ [] → seg.buf.length < coHdrSize → coHdrSize ≤ (seg.buf ++ data).length →
    coHdrChecks (header (seg.buf ++ data) fun _ => 0) = false → coHdrSize ≤ data.length

theorem enough_coBody (dataUsed : ℕ) : ∀ e ∈ (coBody seg data dataUsed).1, Enough e := by
  unfold coBody
  simp only
  split_ifs <;> simp [Enough]

theorem enough_coFast : ∀ e ∈ (coFast beyond seg data).1, Enough e := by
  unfold coFast
  simp only
  split_ifs with hshort hbad hlong <;> simp [Enough]
  all_goals omega

/-- A header in the buffer is completed. -/
theorem header_complete (beyond beyond' : ℕ → UInt8) (hshort : seg.buf.length < coHdrSize) (hle : coHdrSize ≤ (seg.buf ++ data).length) :
    ∀ i < coHdrSize,
      header (seg.buf ++ data.take (coHdrSize - seg.buf.length)) beyond i = header (seg.buf ++ data) beyond' i := by
  apply header_congr (u := data.drop (coHdrSize - seg.buf.length)) (v := [])
  · rw [List.append_assoc, List.take_append_drop, List.append_nil]
  · rw [List.length_append] at hle ⊢
    rw [List.length_take]
    omega
  · exact hle

theorem enough_coRound_iff (beyond : ℕ → UInt8) (seg : CoSeg) (data : List UInt8) :
    (∀ e ∈ (coRound beyond seg data).1, Enough e) ↔ Sound seg data := by
  unfold coRound Sound
  by_cases hbuf : seg.buf = []
  · rw [if_pos hbuf]
    exact iff_of_true enough_coFast fun h => absurd hbuf h
  by_cases hshort : seg.buf.length < coHdrSize
  · rw [if_neg hbuf, if_pos hshort]
    by_cases hle : coHdrSize ≤ (seg.buf ++ data).length
    · have hhdr := coHdrChecks_congr (header_complete (fun _ => 0) (fun _ => 0) hshort hle)
      rw [handleSegmentation_complete hshort (by rwa [List.length_append] at hle)]
      simp only [if_true, hhdr]
      have hlength : (seg.buf ++ data.take (coHdrSize - seg.buf.length)).length = coHdrSize := by
        rw [List.length_append] at hle ⊢
        rw [List.length_take]
        omega
      by_cases hbad : coHdrChecks (header (seg.buf ++ data) fun _ => 0) = false
      · rw [if_pos hbad]
        rw [hlength]
        rw [List.length_append] at hle ⊢
        simp [hbuf, hshort, hbad, hle, Enough]
      · rw [if_neg hbad]
        refine iff_of_true (List.forall_mem_cons.2 ⟨hlength.ge, ?_⟩) fun _ _ _ h => absurd h hbad
        exact enough_coBody _
    · rw [handleSegmentation_more (by rw [List.length_append] at hle; omega)]
      exact iff_of_true (fun e he => absurd he (by simp)) fun _ _ h => absurd h hle
  · rw [if_neg hbuf, if_neg hshort]
    exact iff_of_true (enough_coBody _) fun _ h => absurd h hshort

theorem enough_coLoop_iff (beyond : ℕ → UInt8) (seg : CoSeg) (data : List UInt8) :
    (∀ e ∈ (coLoop beyond seg data).1, Enough e) ↔ Sound seg data := by
  induction hwork : work seg data using Nat.strong_induction_on generalizing seg data with
  | _ n ih =>
    by_cases hdata : data = []
    · rw [hdata, coLoop_nil]
      refine iff_of_true (fun e he => absurd he (by simp)) fun _ h h' => ?_
      rw [List.append_nil] at h'
      omega
    · rw [← enough_coRound_iff beyond seg data]
      cases h : coRound beyond seg data with
      | mk evs r =>
        obtain ⟨seg', data'⟩ := r
        cases data' with
        | none => rw [coLoop_none hdata h]
        | some data' =>
          obtain ⟨hbuf, hlt⟩ := coRound_rest h
          have hrest := (ih _ (hwork ▸ hlt) seg' data' rfl).2 fun h' => absurd hbuf h'
          rw [coLoop_some hdata h]
          exact ⟨fun h' e he => h' e (List.mem_append_left _ he),
            fun h' e he => (List.mem_append.1 he).elim (h' e) (hrest e)⟩

/-! ### PDUs -/

/-- A PDU that passes the checks, with the length that its header says. -/
def Pdu (p : List UInt8) : Prop :=
  coHdrChecks (header p fun _ => 0) = true ∧ coFragLen (header p fun _ => 0) = p.length

def Event.pdu : Event → Option (List UInt8)
  | .hdrChecks _ => none
  | .decode pdu => some pdu
  | .segDecode pdu => some pdu

/-- The PDUs that are decoded. -/
def decoded (evs : List Event) : List (List UInt8) := evs.filterMap Event.pdu

/-- What is buffered belongs to the next PDU. -/
def Aligned (seg : CoSeg) (pdus : List (List UInt8)) : Prop :=
  seg.buf = [] ∨ ∃ p ∈ pdus.head?, seg.buf.length < p.length ∧
    (coHdrSize ≤ seg.buf.length → seg.fragLen = p.length)

variable {p q : List UInt8} {pdus : List (List UInt8)}

theorem Pdu.length (h : Pdu p) : coHdrSize ≤ p.length := by
  rw [← h.2]
  exact coHdrSize_le (by rw [h.1]; exact Bool.noConfusion)

/-- The header of the first PDU of a stream. -/
theorem Pdu.header (h : Pdu p) (beyond : ℕ → UInt8) {x : List UInt8} (hstream : x ++ rest = p ++ q) (hx : coHdrSize ≤ x.length) :
    ¬coHdrChecks (header x beyond) = false ∧ coFragLen (header x beyond) = p.length := by
  have hhdr : ∀ i < coHdrSize, Dce2.header x beyond i = Dce2.header p (fun _ => 0) i :=
    header_congr hstream hx h.length
  rw [coHdrChecks_congr hhdr, coFragLen_congr hhdr, h.1]
  exact ⟨Bool.noConfusion, h.2⟩

/-- The first PDU is there. -/
theorem stream_split {x : List UInt8} (h : x ++ rest = p ++ q) (hle : p.length ≤ x.length) :
    x.take p.length = p ∧ x = p ++ x.drop p.length := by
  have htake := congrArg (List.take p.length) h
  rw [List.take_append_of_le_length hle, List.take_left] at htake
  have hx := List.take_append_drop p.length x
  rw [htake] at hx
  exact ⟨htake, hx.symm⟩

/-- The PDU of a buffered header, where the data completes it. -/
theorem coBody_complete {dataUsed : ℕ} (hle : seg.buf.length ≤ seg.fragLen)
    (hused : seg.buf.length = seg.fragLen → dataUsed ≠ 0)
    (hlong : seg.fragLen ≤ (seg.buf ++ data).length) :
    coBody seg data dataUsed =
      ([.segDecode ((seg.buf ++ data).take seg.fragLen)], { seg with buf := [] },
        some ((seg.buf ++ data).drop seg.fragLen)) := by
  unfold coBody
  rw [List.take_append, List.drop_append]
  by_cases hlt : seg.buf.length < seg.fragLen
  · rw [List.length_append] at hlong
    rw [if_pos hlt, handleSegmentation_complete hlt hlong, List.take_of_length_le hle,
      List.drop_of_length_le hle, List.nil_append]
    simp only [if_true]
    rw [if_neg (by omega)]
  · have heq : seg.buf.length = seg.fragLen := by omega
    rw [if_neg hlt, if_neg (hused heq), heq, Nat.sub_self, List.take_zero, List.append_nil, List.drop_zero,
      ← heq, List.take_length, List.drop_length, List.nil_append]

theorem coBody_more {dataUsed : ℕ} (hshort : (seg.buf ++ data).length < seg.fragLen) :
    coBody seg data dataUsed = ([], { seg with buf := seg.buf ++ data }, none) := by
  rw [List.length_append] at hshort
  unfold coBody
  rw [if_pos (by omega), handleSegmentation_more hshort]
  simp

/-- What a round does to the start `x` of a stream: it is buffered, or the next PDU is decoded. -/
inductive Progress (p : List UInt8) (pdus : List (List UInt8)) (x : List UInt8) :
    List Event × CoSeg × Option (List UInt8) → Prop
  | buffered {evs : List Event} {seg' : CoSeg} (hevs : decoded evs = []) (hseg : Aligned seg' (p :: pdus))
      (hbuf : seg'.buf = x) : Progress p pdus x (evs, seg', none)
  | decoded {evs : List Event} {seg' : CoSeg} {data' : List UInt8} (hevs : decoded evs = [p])
      (hbuf : seg'.buf = []) (hx : x = p ++ data') : Progress p pdus x (evs, seg', some data')

/-- Further events without a PDU. -/
theorem Progress.check {x : List UInt8} {r : List Event × CoSeg × Option (List UInt8)}
    (h : Progress p pdus x r) (n : ℕ) : Progress p pdus x (.hdrChecks n :: r.1, r.2) := by
  cases h with
  | buffered hevs hseg hbuf => exact .buffered hevs hseg hbuf
  | decoded hevs hbuf hx => exact .decoded hevs hbuf hx

theorem coBody_progress (seg : CoSeg) (data : List UInt8) {dataUsed : ℕ}
    (hstream : (seg.buf ++ data) ++ rest = p ++ q) (hfrag : seg.fragLen = p.length)
    (hle : seg.buf.length ≤ p.length) (hused : seg.buf.length = p.length → dataUsed ≠ 0) :
    Progress p pdus (seg.buf ++ data) (coBody seg data dataUsed) := by
  rw [← hfrag] at hle hused
  rcases Nat.lt_or_ge (seg.buf ++ data).length p.length with hshort | hlong
  · rw [coBody_more (by rwa [hfrag])]
    exact .buffered rfl (.inr ⟨p, rfl, hshort, fun _ => hfrag⟩) rfl
  · obtain ⟨htake, hx⟩ := stream_split hstream hlong
    rw [coBody_complete hle hused (by rwa [hfrag]), hfrag, htake]
    exact .decoded rfl rfl hx

theorem coFast_progress (hp : Pdu p) (hbuf : seg.buf = []) (hstream : data ++ rest = p ++ q) :
    Progress p pdus data (coFast beyond seg data) := by
  have hlength := hp.length
  unfold coFast
  by_cases hshort : data.length < coHdrSize
  · rw [if_pos hshort, hbuf, handleSegmentation_more (by simpa using hshort)]
    refine .buffered rfl (.inr ⟨p, rfl, ?_, fun h => absurd hshort (Nat.not_lt.2 h)⟩) rfl
    exact hshort.trans_le hlength
  obtain ⟨hgood, hfrag⟩ := hp.header beyond hstream (Nat.not_lt.1 hshort)
  rw [if_neg hshort, if_neg hgood]
  simp only [hfrag]
  by_cases hmore : data.length < p.length
  · rw [if_pos hmore, hbuf, handleSegmentation_more (by simpa using hmore)]
    exact .buffered rfl (.inr ⟨p, rfl, hmore, fun _ => rfl⟩) rfl
  · obtain ⟨htake, hx⟩ := stream_split hstream (Nat.not_lt.1 hmore)
    rw [if_neg hmore, htake]
    exact .decoded rfl hbuf hx

/-- A round at the start of a stream of PDUs. -/
theorem coRound_progress (hp : Pdu p) (h : Aligned seg (p :: pdus))
    (hstream : (seg.buf ++ data) ++ rest = p ++ q) :
    Progress p pdus (seg.buf ++ data) (coRound beyond seg data) := by
  unfold coRound
  by_cases hbuf : seg.buf = []
  · rw [if_pos hbuf, hbuf, List.nil_append]
    rw [hbuf, List.nil_append] at hstream
    exact coFast_progress hp hbuf hstream
  obtain ⟨p', hp', hlt, hfrag⟩ := h.resolve_left hbuf
  obtain rfl : p = p' := Option.some.inj hp'
  rw [if_neg hbuf]
  by_cases hshort : seg.buf.length < coHdrSize
  · rw [if_pos hshort]
    rcases Nat.lt_or_ge (seg.buf ++ data).length coHdrSize with hmore | hle
    · rw [handleSegmentation_more (by rwa [List.length_append] at hmore)]
      refine .buffered rfl (.inr ⟨p, rfl, hmore.trans_le hp.length, fun h => ?_⟩) rfl
      exact absurd hmore (Nat.not_lt.2 h)
    · rw [List.length_append] at hle
      rw [handleSegmentation_complete hshort hle]
      have hsplit : (seg.buf ++ data.take (coHdrSize - seg.buf.length)) ++
          data.drop (coHdrSize - seg.buf.length) = seg.buf ++ data := by
        rw [List.append_assoc, List.take_append_drop]
      have hlength : (seg.buf ++ data.take (coHdrSize - seg.buf.length)).length = coHdrSize := by
        rw [List.length_append, List.length_take]
        omega
      rw [← hsplit] at hstream ⊢
      obtain ⟨hgood, hlen⟩ := hp.header (fun _ => 0)
        ((List.append_assoc _ _ _).symm.trans hstream) hlength.ge
      simp only [if_true, if_neg hgood]
      apply Progress.check
      apply coBody_progress ⟨_, _⟩ _ hstream hlen
      · exact hlength.le.trans hp.length
      · exact fun _ => by omega
  · rw [if_neg hshort]
    exact coBody_progress seg data hstream (hfrag (Nat.not_lt.1 hshort)) hlt.le fun h => absurd hlt (by omega)

theorem decoded_append (evs evs' : List Event) : decoded (evs ++ evs') = decoded evs ++ decoded evs' :=
  List.filterMap_append

/-- The whole loop. -/
theorem coLoop_pdus (beyond : ℕ → UInt8) (seg : CoSeg) (data : List UInt8) (pdus : List (List UInt8))
    (hpdus : ∀ p ∈ pdus, Pdu p) (h : Aligned seg pdus) (hstream : (seg.buf ++ data) ++ rest = pdus.flatten) :
    ∃ pdus', pdus = decoded (coLoop beyond seg data).1 ++ pdus' ∧ Aligned (coLoop beyond seg data).2 pdus' ∧
      seg.buf ++ data = (decoded (coLoop beyond seg data).1).flatten ++ (coLoop beyond seg data).2.buf := by
  induction hwork : work seg data using Nat.strong_induction_on generalizing seg data pdus with
  | _ n ih =>
    by_cases hdata : data = []
    · rw [hdata, coLoop_nil, List.append_nil]
      exact ⟨pdus, rfl, h, rfl⟩
    cases pdus with
    | nil =>
      rw [List.flatten_nil, List.append_eq_nil_iff, List.append_eq_nil_iff] at hstream
      exact absurd hstream.1.2 hdata
    | cons p pdus =>
      have hprogress : Progress p pdus (seg.buf ++ data) (coRound beyond seg data) :=
        coRound_progress (hpdus p List.mem_cons_self) h hstream
      cases hround : coRound beyond seg data with
      | mk evs r =>
        obtain ⟨seg', data'⟩ := r
        rw [hround] at hprogress
        cases hprogress with
        | buffered hevs hseg hbuf =>
          rw [coLoop_none hdata hround, hevs]
          exact ⟨p :: pdus, rfl, hseg, hbuf.symm⟩
        | decoded hevs hbuf hx =>
          rename_i data'
          rw [coLoop_some hdata hround, decoded_append, hevs]
          rw [hx, List.flatten_cons, List.append_assoc] at hstream
          have hrest : (seg'.buf ++ data') ++ rest = pdus.flatten := by
            rw [hbuf, List.nil_append]
            exact List.append_cancel_left hstream
          obtain ⟨pdus', hsplit, haligned, hflatten⟩ := ih _ (hwork ▸ (coRound_rest hround).2) seg' data' pdus
            (fun p' hp' => hpdus p' (List.mem_cons_of_mem _ hp')) (.inl hbuf) hrest rfl
          refine ⟨pdus', ?_, haligned, ?_⟩
          · rw [List.append_assoc, ← hsplit]
            rfl
          · rw [hx, List.flatten_append, List.append_assoc, ← hflatten, hbuf]
            simp

/-! ### Packets -/

/-- The packets of a session. -/
def coRun : CoSeg → List Packet → List Event × CoSeg
  | seg, [] => ([], seg)
  | seg, p :: ps => ((coProcess seg p).1 ++ (coRun (coProcess seg p).2 ps).1, (coRun (coProcess seg p).2 ps).2)

/-- The bytes of packets. -/
def bytes (ps : List Packet) : List UInt8 := (ps.map Packet.data).flatten

theorem coRun_concat (seg : CoSeg) (ps : List Packet) (p : Packet) :
    coRun seg (ps ++ [p]) =
      ((coRun seg ps).1 ++ (coProcess (coRun seg ps).2 p).1, (coProcess (coRun seg ps).2 p).2) := by
  induction ps generalizing seg with
  | nil => simp [coRun]
  | cons q ps ih => simp [coRun, ih]

/-- **The PDUs of a stream are decoded.** -/
theorem coRun_pdus (seg : CoSeg) (ps : List Packet) (pdus : List (List UInt8)) (hpdus : ∀ p ∈ pdus, Pdu p)
    (h : Aligned seg pdus) (hstream : (seg.buf ++ bytes ps) ++ rest = pdus.flatten) :
    ∃ pdus', pdus = decoded (coRun seg ps).1 ++ pdus' ∧ Aligned (coRun seg ps).2 pdus' ∧
      seg.buf ++ bytes ps = (decoded (coRun seg ps).1).flatten ++ (coRun seg ps).2.buf := by
  induction ps generalizing seg pdus with
  | nil => exact ⟨pdus, rfl, h, List.append_nil _⟩
  | cons p ps ih =>
    have hbytes : bytes (p :: ps) = p.data ++ bytes ps := rfl
    rw [hbytes, ← List.append_assoc] at hstream
    obtain ⟨pdus₁, hsplit₁, haligned₁, hflatten₁⟩ := coLoop_pdus p.beyond seg p.data pdus hpdus h
      ((List.append_assoc _ _ _).symm.trans hstream)
    rw [hflatten₁, hsplit₁, List.flatten_append, List.append_assoc, List.append_assoc] at hstream
    have hrest : ((coProcess seg p).2.buf ++ bytes ps) ++ rest = pdus₁.flatten := by
      rw [List.append_assoc]
      exact List.append_cancel_left hstream
    obtain ⟨pdus', hsplit, haligned, hflatten⟩ := ih (coProcess seg p).2 pdus₁
      (fun q hq => hpdus q (hsplit₁ ▸ List.mem_append_right _ hq)) haligned₁ hrest
    refine ⟨pdus', ?_, haligned, ?_⟩
    · unfold coRun
      rw [decoded_append, List.append_assoc, ← hsplit]
      exact hsplit₁
    · simp only [coRun]
      rw [decoded_append, List.flatten_append, List.append_assoc, ← hflatten, hbytes, ← List.append_assoc,
        hflatten₁, List.append_assoc]
      rfl

theorem enough_coRun_iff (seg : CoSeg) (ps : List Packet) :
    (∀ e ∈ (coRun seg ps).1, Enough e) ↔ ∀ pre p, pre ++ [p] <+: ps → Sound (coRun seg pre).2 p.data := by
  induction ps using List.reverseRecOn with
  | nil => exact iff_of_true (fun e he => absurd he (by simp [coRun])) fun pre p h => absurd h (by simp)
  | append_singleton ps p ih =>
    rw [coRun_concat]
    simp only [List.forall_mem_append]
    rw [ih, coProcess, enough_coLoop_iff]
    constructor
    · rintro ⟨hbefore, hlast⟩ pre q hpre
      rcases List.prefix_concat_iff.1 hpre with heq | hpre
      · obtain ⟨rfl, rfl⟩ := List.append_inj' heq rfl |>.imp_right List.singleton_inj.1
        exact hlast
      · exact hbefore pre q hpre
    · intro h
      exact ⟨fun pre q hpre => h pre q (hpre.trans (List.prefix_append _ _)), h ps p (List.prefix_refl _)⟩

/-- A session at its start. -/
def freshSeg : CoSeg := ⟨0, []⟩

/-- What is buffered is the start of the next PDU. -/
def Unfinished (buf : List UInt8) (pdus : List (List UInt8)) : Prop :=
  buf = [] ∨ ∃ p ∈ pdus.head?, buf <+: p ∧ buf ≠ p

/-- **Desegmentation**: of every stream of PDUs, cut into packets in any way, the PDUs are decoded, each once and
whole, and the start of the next one is buffered; and header checks read inside of the data if and only if all
packets are sound. -/
theorem coProcess_desegments_iff (ps : List Packet) :
    (∀ pdus : List (List UInt8), (∀ p ∈ pdus, Pdu p) → bytes ps <+: pdus.flatten →
      ∃ pdus', pdus = decoded (coRun freshSeg ps).1 ++ pdus' ∧
        bytes ps = (decoded (coRun freshSeg ps).1).flatten ++ (coRun freshSeg ps).2.buf ∧
        Unfinished (coRun freshSeg ps).2.buf pdus') ∧
      ((∀ e ∈ (coRun freshSeg ps).1, Enough e) ↔
        ∀ pre p, pre ++ [p] <+: ps → Sound (coRun freshSeg pre).2 p.data) := by
  refine ⟨fun pdus hpdus hstream => ?_, enough_coRun_iff freshSeg ps⟩
  obtain ⟨rest, hrest⟩ := hstream
  obtain ⟨pdus', hsplit, haligned, hflatten⟩ := coRun_pdus freshSeg ps pdus hpdus (.inl rfl) hrest
  refine ⟨pdus', hsplit, hflatten, haligned.imp_right ?_⟩
  rintro ⟨p, hp, hlt, -⟩
  refine ⟨p, hp, ?_, fun h => absurd (congrArg List.length h) hlt.ne⟩
  cases pdus' with
  | nil => exact absurd hp (by simp)
  | cons p' pdus' =>
    obtain rfl : p' = p := Option.some.inj hp
    have hflat := congrArg List.flatten hsplit
    rw [← hrest, List.flatten_append, show bytes ps = freshSeg.buf ++ bytes ps from rfl, hflatten,
      List.append_assoc] at hflat
    have htail := List.append_cancel_left hflat
    rw [List.flatten_cons] at htail
    exact List.prefix_of_prefix_length_le ⟨rest, htail⟩ (List.prefix_append _ _) hlt.le

/-- Sixteen bytes that are no header, in packets of ten and six bytes: the header check goes ten bytes beyond the
second packet. -/
theorem short_header_checked :
    ¬∀ e ∈ (coRun freshSeg [⟨List.replicate 10 0, fun _ => 0⟩, ⟨List.replicate 6 0, fun _ => 0⟩]).1, Enough e := by
  rw [enough_coRun_iff]
  intro h
  have hround : coRound (fun _ => 0) freshSeg (List.replicate 10 0) =
      ([], ⟨0, List.replicate 10 0⟩, none) := by decide
  have hbuf : (coRun freshSeg [⟨List.replicate 10 0, fun _ => 0⟩]).2 = ⟨0, List.replicate 10 0⟩ := by
    unfold coRun coProcess
    rw [coLoop_none (by decide) hround]
    rfl
  have hsound := h [⟨List.replicate 10 0, fun _ => 0⟩] ⟨List.replicate 6 0, fun _ => 0⟩ (List.prefix_refl _)
  rw [hbuf] at hsound
  exact absurd (hsound (by decide) (by decide) (by decide) (by decide)) (by decide)

end Snort.Dce2
