import Snort.Dce2.Co

/-!
# Flush points of connection-oriented PDUs

* `tcpScan`, `tcpPaf`: a callback that reads headers byte by byte, and several PDUs in one call;
* `feed`, `feedAll`: segments are scanned from the last flush point on, with the state kept between calls.

The session is known and not aborted.  The limit on what is queued without a flush point is left out.

* `TcpPdu`: a PDU with its own length in its header;
* `Matches`: the state of the callback behind some bytes of a header;
* `Clean`: a segment that does not end inside of a header behind the header of another PDU;
* **`feedAll_ends`**: with clean segments the flush points are ends of PDUs, up to the end of the stream.
-/

namespace Snort.Dce2

/-- `DCE2_PafTcpState`; `state` counts the bytes of a header. -/
structure PafTcpState where
  state : ℕ
  byteOrder : Bool
  fragLen : ℕ
  deriving DecidableEq

/-- The state as it is allocated. -/
def newPafTcpState : PafTcpState := ⟨0, false, 0⟩

/-- A byte of a header but the last one of the fragment length. -/
def PafTcpState.byte (ds : PafTcpState) (b : UInt8) : PafTcpState :=
  if ds.state = 4 then { ds with state := 5, byteOrder := dceRpcByteOrder b }
  else if ds.state = 8 then
    { ds with state := 9, fragLen := if ds.byteOrder then b.toNat else 256 * b.toNat }
  else { ds with state := ds.state + 1 }

/-- The fragment length with its last byte. -/
def PafTcpState.length (ds : PafTcpState) (b : UInt8) : ℕ :=
  if ds.byteOrder then ds.fragLen + 256 * b.toNat else ds.fragLen + b.toNat

/-- The loop of `DCE2_TcpPaf`, with `skip` bytes of a PDU to pass over; nothing for `PAF_ABORT`, else the state and
`tmp_fp`. -/
def tcpScan : List UInt8 → (skip : ℕ) → PafTcpState → (numRequests tmpFp : ℕ) → Option (PafTcpState × ℕ)
  | [], _, ds, _, tmpFp => some (ds, tmpFp)
  | _ :: data, skip + 1, ds, numRequests, tmpFp => tcpScan data skip ds numRequests tmpFp
  | b :: data, 0, ds, numRequests, tmpFp =>
    if ds.state = 9 then
      let fragLen := ds.length b
      if fragLen < coHdrSize then none
      else
        -- a partial PDU is flushed only as the first one
        tcpScan data (fragLen - 10) { ds with state := 0, fragLen := fragLen } (numRequests + 1)
          (if numRequests + 1 = 1 ∨ fragLen - 9 ≤ (b :: data).length then tmpFp + fragLen else tmpFp)
    else tcpScan data 0 (ds.byte b) numRequests tmpFp

/-- `PAF_Status` of `DCE2_TcpPaf`, with the state and the flush point. -/
inductive TcpVerdict
  | search (ds : PafTcpState)
  | flush (ds : PafTcpState) (fp : ℕ)
  | abort
  deriving DecidableEq

/-- `DCE2_TcpPaf`. -/
def tcpPaf (ds : PafTcpState) (data : List UInt8) : TcpVerdict :=
  match tcpScan data 0 ds 0 0 with
  | none => .abort
  | some (ds', tmpFp) => if tmpFp ≠ 0 then .flush ds' (tmpFp - ds.state) else .search ds'

/-! ### Segments -/

/-- What is left of some data behind a flush point, and what the flush point is ahead of it. -/
structure Feeding where
  ds : PafTcpState
  ahead : ℕ

/-- A segment from a stream position on: flush points, and the state behind it; nothing when the callback gives
up.  The fuel bounds the number of calls and flush points. -/
def feed : ℕ → Feeding → (pos : ℕ) → List UInt8 → Option (Feeding × List ℕ)
  | 0, _, _, _ => none
  | fuel + 1, f, pos, data =>
    if data = [] then some (f, [])
    else if f.ahead = 0 then
      match tcpPaf f.ds data with
      | .abort => none
      | .search ds => some (⟨ds, 0⟩, [])
      | .flush ds fp => feed fuel ⟨ds, fp⟩ pos data
    else if data.length < f.ahead then some (⟨f.ds, f.ahead - data.length⟩, [])
    else (feed fuel ⟨f.ds, 0⟩ (pos + f.ahead) (data.drop f.ahead)).map fun r => (r.1, (pos + f.ahead) :: r.2)

/-- All segments: the flush points. -/
def feedAll : Feeding → (pos : ℕ) → List (List UInt8) → Option (List ℕ)
  | _, _, [] => some []
  | f, pos, seg :: segs =>
    (feed (2 * seg.length + 2) f pos seg).bind fun r =>
      (feedAll r.1 (pos + seg.length) segs).map fun points => r.2 ++ points

/-! ## PDUs in segments -/

/-- A PDU with its own length in its header. -/
def TcpPdu (p : List UInt8) : Prop :=
  coHdrSize ≤ p.length ∧ coFragLen (header p fun _ => 0) = p.length

/-- The state behind `k` bytes of a PDU. -/
structure Matches (ds : PafTcpState) (p : List UInt8) (k : ℕ) : Prop where
  state : ds.state = k
  byteOrder : 4 < k → ds.byteOrder = dceRpcByteOrder (p.getD 4 0)
  fragLen : 8 < k → ds.fragLen = if ds.byteOrder then (p.getD 8 0).toNat else 256 * (p.getD 8 0).toNat

variable {ds : PafTcpState} {p : List UInt8} {ps qs : List (List UInt8)} {d r : List UInt8} {k num fp : ℕ}

theorem matches_zero (h : ds.state = 0) : Matches ds p 0 :=
  ⟨h, fun h' => absurd h' (by decide), fun h' => absurd h' (by decide)⟩

theorem Matches.byte (h : Matches ds p k) (hk : k < 9) : Matches (ds.byte (p.getD k 0)) p (k + 1) := by
  obtain ⟨rfl, hbo, -⟩ := h
  unfold PafTcpState.byte
  by_cases h4 : ds.state = 4
  · rw [if_pos h4]
    exact ⟨congrArg (· + 1) h4.symm, fun _ => by rw [h4], fun h' => absurd h' (by omega)⟩
  rw [if_neg h4]
  by_cases h8 : ds.state = 8
  · rw [if_pos h8]
    exact ⟨congrArg (· + 1) h8.symm, fun _ => hbo (by omega), fun _ => by rw [h8]⟩
  · rw [if_neg h8]
    exact ⟨rfl, fun _ => hbo (by omega), fun h' => absurd h' (by omega)⟩

theorem Matches.length (h : Matches ds p 9) (hp : TcpPdu p) : ds.length (p.getD 9 0) = p.length := by
  have hbo := h.byteOrder (by decide)
  have hfrag := h.fragLen (by decide)
  have hlen := hp.2
  unfold coFragLen dceRpcNtohs header at hlen
  simp only [List.getD_eq_getElem?_getD] at hbo hfrag hlen ⊢
  unfold PafTcpState.length
  rw [hfrag, hbo, ← hlen, List.getElem?_eq_getElem (by have := hp.1; unfold coHdrSize at this; omega),
    List.getElem?_eq_getElem (by have := hp.1; unfold coHdrSize at this; omega),
    List.getElem?_eq_getElem (by have := hp.1; unfold coHdrSize at this; omega)]
  simp only [Option.getD_some]
  split
  · rfl
  · rfl

/-! ### The loop -/

theorem tcpScan_skip (d : List UInt8) (skip : ℕ) (ds : PafTcpState) (num fp : ℕ) :
    tcpScan d skip ds num fp = tcpScan (d.drop skip) 0 ds num fp := by
  induction d generalizing skip with
  | nil => rw [List.drop_nil, tcpScan, tcpScan]
  | cons b d ih =>
    cases skip with
    | zero => rfl
    | succ skip => rw [tcpScan, ih, List.drop_succ_cons]

/-- The rest of a header, and how it goes on. -/
theorem tcpScan_header (hp : TcpPdu p) {tail : List UInt8} (h : Matches ds p k) (hk : k ≤ 9)
    (hd : d ++ r = p.drop k ++ tail) :
    (d.length + k ≤ 9 → ∃ ds', Matches ds' p (k + d.length) ∧ tcpScan d 0 ds num fp = some (ds', fp)) ∧
      (9 < d.length + k → ∃ ds', ds'.state = 0 ∧ tcpScan d 0 ds num fp =
        tcpScan (d.drop (10 - k)) (p.length - 10) ds' (num + 1)
          (if num + 1 = 1 ∨ p.length ≤ d.length + k then fp + p.length else fp)) := by
  induction d generalizing ds k with
  | nil => exact ⟨fun _ => ⟨ds, h, by rw [tcpScan]⟩, fun h' => absurd h' (by rw [List.length_nil]; omega)⟩
  | cons b d ih =>
    have hlength := hp.1
    unfold coHdrSize at hlength
    have hkp : k < p.length := by omega
    rw [List.drop_eq_getElem_cons hkp, List.cons_append, List.cons_append] at hd
    obtain ⟨hb, hd⟩ := List.cons.inj hd
    have hget : p.getD k 0 = b := by
      rw [List.getD_eq_getElem?_getD, List.getElem?_eq_getElem hkp, hb]
      rfl
    rw [tcpScan]
    by_cases hk9 : k = 9
    · subst hk9
      have hlen := h.length hp
      rw [hget] at hlen
      rw [if_pos h.state]
      simp only [hlen]
      refine ⟨fun h' => absurd h' (by rw [List.length_cons]; omega), fun _ =>
        ⟨{ ds with state := 0, fragLen := p.length }, rfl, ?_⟩⟩
      rw [if_neg (by unfold coHdrSize; omega)]
      have hcond : (num + 1 = 1 ∨ p.length - 9 ≤ (b :: d).length) ↔
          (num + 1 = 1 ∨ p.length ≤ (b :: d).length + 9) := by omega
      simp only [hcond]
      rfl
    · have hmatches := h.byte (by omega)
      rw [hget] at hmatches
      rw [if_neg (by rw [h.state]; exact hk9)]
      obtain ⟨hshort, hlong⟩ := ih hmatches (by omega) hd
      rw [List.length_cons]
      constructor
      · intro hle
        obtain ⟨ds', hds', hscan⟩ := hshort (by omega)
        refine ⟨ds', ?_, hscan⟩
        rw [show k + (d.length + 1) = k + 1 + d.length by omega]
        exact hds'
      · intro hlt
        obtain ⟨ds', hds', hscan⟩ := hlong (by omega)
        refine ⟨ds', hds', ?_⟩
        rw [hscan, show 10 - k = (10 - (k + 1)) + 1 by omega, List.drop_succ_cons,
          show d.length + (k + 1) = d.length + 1 + k by omega]

/-- A whole header. -/
theorem tcpScan_pdu (hp : TcpPdu p) {tail : List UInt8} (h : Matches ds p k) (hk : k ≤ 9)
    (hd : d ++ r = p.drop k ++ tail) (hlt : 9 < d.length + k) :
    ∃ ds', ds'.state = 0 ∧ tcpScan d 0 ds num fp =
      tcpScan (d.drop (p.length - k)) 0 ds' (num + 1)
        (if num + 1 = 1 ∨ p.length ≤ d.length + k then fp + p.length else fp) := by
  obtain ⟨ds', hds', hscan⟩ := (@tcpScan_header ds p d r k num fp hp tail h hk hd).2 hlt
  have hlength := hp.1
  unfold coHdrSize at hlength
  refine ⟨ds', hds', ?_⟩
  rw [hscan, tcpScan_skip, List.drop_drop]
  congr 2
  omega

/-! ### Several PDUs -/

/-- The bytes of the first PDUs. -/
def upTo (ps : List (List UInt8)) (j : ℕ) : ℕ := (ps.take j).flatten.length

@[simp] theorem upTo_zero : upTo ps 0 = 0 := rfl

theorem upTo_cons_succ (j : ℕ) : upTo (p :: ps) (j + 1) = p.length + upTo ps j := by
  unfold upTo
  rw [List.take_succ_cons, List.flatten_cons, List.length_append]

/-- PDUs behind the first one of a call. -/
theorem tcpScan_rest (hps : ∀ q ∈ ps, TcpPdu q) (hd : d ++ r = ps.flatten) (hds : ds.state = 0) (hnum : 1 ≤ num)
    (hclean : ∀ j < ps.length, upTo ps j < d.length → upTo ps j + 10 ≤ d.length) :
    ∃ j ds', j ≤ ps.length ∧ ds'.state = 0 ∧ tcpScan d 0 ds num fp = some (ds', fp + upTo ps j) := by
  induction ps generalizing d ds num fp with
  | nil =>
    obtain ⟨rfl, -⟩ := List.append_eq_nil_iff.1 hd
    exact ⟨0, ds, le_rfl, hds, by rw [tcpScan]; rfl⟩
  | cons q qs ih =>
    by_cases hnil : d = []
    · subst hnil
      exact ⟨0, ds, Nat.zero_le _, hds, by rw [tcpScan]; rfl⟩
    have hpos : 0 < d.length := List.length_pos_iff.2 hnil
    have hten := hclean 0 (Nat.succ_pos _) hpos
    rw [upTo_zero, Nat.zero_add] at hten
    have hq := hps q List.mem_cons_self
    have hhead : d ++ r = q.drop 0 ++ qs.flatten := hd
    obtain ⟨ds', hds', hscan⟩ := @tcpScan_pdu ds q d r 0 num fp hq _ (matches_zero hds) (by omega) hhead
      (by omega)
    rw [Nat.sub_zero, Nat.add_zero] at hscan
    rw [hscan]
    by_cases hle : q.length ≤ d.length
    · have hdrop : d.drop q.length ++ r = qs.flatten := by
        have hdrop := congrArg (List.drop q.length) hd
        rwa [List.drop_append_of_le_length hle, List.flatten_cons, List.drop_left] at hdrop
      rw [if_pos (.inr hle)]
      obtain ⟨j, ds'', hj, hds'', hscan'⟩ := @ih ds' (d.drop q.length) (num + 1) (fp + q.length)
        (fun q' hq' => hps q' (List.mem_cons_of_mem _ hq')) hdrop hds' (by omega) (by
          intro j hj hlt
          have hc := hclean (j + 1) (Nat.succ_lt_succ hj)
          rw [upTo_cons_succ] at hc
          rw [List.length_drop] at hlt ⊢
          omega)
      refine ⟨j + 1, ds'', Nat.succ_le_succ hj, hds'', ?_⟩
      rw [hscan', upTo_cons_succ, Nat.add_assoc]
    · rw [if_neg (by omega), List.drop_of_length_le (by omega), tcpScan]
      exact ⟨0, ds', Nat.zero_le _, hds', rfl⟩

/-! ### Calls -/

theorem tcpPaf_search (hp : TcpPdu p) {tail : List UInt8} (h : Matches ds p k) (hk : k ≤ 9)
    (hd : d ++ r = p.drop k ++ tail) (hle : d.length + k ≤ 9) :
    ∃ ds', Matches ds' p (k + d.length) ∧ tcpPaf ds d = .search ds' := by
  obtain ⟨ds', hds', hscan⟩ := (@tcpScan_header ds p d r k 0 0 hp tail h hk hd).1 hle
  refine ⟨ds', hds', ?_⟩
  unfold tcpPaf
  rw [hscan]
  rfl

/-- A call that completes a header selects the end of the PDU, or of a later one that is whole. -/
theorem tcpPaf_flush (hp : TcpPdu p) (hps : ∀ q ∈ ps, TcpPdu q) (h : Matches ds p k) (hk : k ≤ 9)
    (hd : d ++ r = p.drop k ++ ps.flatten) (hlt : 9 < d.length + k)
    (hclean : ∀ j < ps.length, p.length + upTo ps j < d.length + k → p.length + upTo ps j + 10 ≤ d.length + k) :
    ∃ j ds', j ≤ ps.length ∧ ds'.state = 0 ∧ tcpPaf ds d = .flush ds' (p.length + upTo ps j - k) := by
  have hlength := hp.1
  unfold coHdrSize at hlength
  have hflush : ∀ {ds'' : PafTcpState} {n : ℕ}, tcpScan d 0 ds 0 0 = some (ds'', p.length + n) →
      tcpPaf ds d = .flush ds'' (p.length + n - k) := by
    intro ds'' n hscan
    unfold tcpPaf
    rw [hscan]
    simp only
    rw [if_pos (by omega), h.state]
  obtain ⟨ds', hds', hscan⟩ := @tcpScan_pdu ds p d r k 0 0 hp _ h hk hd hlt
  rw [if_pos (.inl rfl), Nat.zero_add, Nat.zero_add] at hscan
  by_cases hle : p.length ≤ d.length + k
  · have hdrop : d.drop (p.length - k) ++ r = ps.flatten := by
      have hdrop := congrArg (List.drop (p.length - k)) hd
      rw [List.drop_append_of_le_length (by omega), ← List.length_drop, List.drop_left] at hdrop
      rwa [List.length_drop] at hdrop
    obtain ⟨j, ds'', hj, hds'', hscan'⟩ := @tcpScan_rest ds' ps (d.drop (p.length - k)) r 1 p.length
      hps hdrop hds' le_rfl (by
        intro j hj hlt'
        have hc := hclean j hj
        rw [List.length_drop] at hlt' ⊢
        omega)
    exact ⟨j, ds'', hj, hds'', hflush (hscan.trans hscan')⟩
  · rw [List.drop_of_length_le (by omega), tcpScan] at hscan
    exact ⟨0, ds', Nat.zero_le _, hds', hflush hscan⟩

/-! ### Segments -/

/-- A flush point is the end of a PDU. -/
def IsEnd (pdus : List (List UInt8)) (x : ℕ) : Prop := ∃ i < pdus.length, x = upTo pdus (i + 1)

/-- Flush points from one position on to another, at ascending ends of PDUs. -/
inductive Ends (pdus : List (List UInt8)) : ℕ → List ℕ → ℕ → Prop
  | nil (last : ℕ) : Ends pdus last [] last
  | cons {last x last' : ℕ} {points : List ℕ} (hlt : last < x) (hend : IsEnd pdus x)
      (h : Ends pdus x points last') : Ends pdus last (x :: points) last'

/-- Where the scan is behind `pos` bytes, with the last flush point: in a header, or in front of the next flush
point, which is the end of a PDU. -/
def At (pdus : List (List UInt8)) (f : Feeding) (last pos : ℕ) : Prop :=
  ∃ done rest, pdus = done ++ rest ∧ last = done.flatten.length ∧
    ((f.ahead = 0 ∧ ∃ k ≤ 9, pos = last + k ∧ Matches f.ds (rest.headD []) k) ∨
      (0 < f.ahead ∧ f.ds.state = 0 ∧
        ∃ mid ps, mid ≠ [] ∧ rest = mid ++ ps ∧ pos + f.ahead = last + mid.flatten.length))

/-- A segment with the last byte of a PDU's length does not end in the first nine bytes of a later PDU. -/
def Clean (pdus : List (List UInt8)) (start stop : ℕ) : Prop :=
  ∀ j i, j < i → i < pdus.length → start ≤ upTo pdus j + 9 → upTo pdus j + 9 < stop → upTo pdus i < stop →
    upTo pdus i + 10 ≤ stop

theorem upTo_append (done : List (List UInt8)) (j : ℕ) :
    upTo (done ++ ps) (done.length + j) = done.flatten.length + upTo ps j := by
  unfold upTo
  rw [List.take_length_add_append, List.flatten_append, List.length_append]

variable {pdus : List (List UInt8)} {f : Feeding} {last pos start : ℕ} {data : List UInt8}

/-- A segment, or what is left of it behind a flush point. -/
theorem feed_spec (hpdus : ∀ p ∈ pdus, TcpPdu p) (fuel : ℕ) (h : At pdus f last pos)
    (hfuel : 2 * data.length + (if f.ahead = 0 then 2 else 1) ≤ fuel) (hdata : data ++ r = pdus.flatten.drop pos)
    (hstart : start ≤ pos) (hclean : Clean pdus start (pos + data.length)) :
    ∃ f' points last', feed fuel f pos data = some (f', points) ∧ At pdus f' last' (pos + data.length) ∧
      Ends pdus last points last' := by
  induction fuel generalizing f last pos data with
  | zero => split at hfuel <;> omega
  | succ fuel ih =>
    unfold feed
    by_cases hnil : data = []
    · rw [if_pos hnil, hnil]
      exact ⟨f, [], last, rfl, h, .nil last⟩
    have hpos : 0 < data.length := List.length_pos_iff.2 hnil
    rw [if_neg hnil]
    obtain ⟨done, rest, rfl, hlast, ⟨hahead, k, hk, hposk, hmatches⟩ | ⟨hahead, hstate, mid, ps, hmid, rfl, hend⟩⟩ := h
    · rw [if_pos hahead] at hfuel ⊢
      rw [hposk, hlast, List.flatten_append, List.drop_length_add_append] at hdata
      cases rest with
      | nil =>
        rw [List.flatten_nil, List.drop_nil] at hdata
        exact absurd (List.append_eq_nil_iff.1 hdata).1 hnil
      | cons p ps =>
        have hp := hpdus p (List.mem_append_right _ List.mem_cons_self)
        have hps : ∀ q ∈ ps, TcpPdu q :=
          fun q hq => hpdus q (List.mem_append_right _ (List.mem_cons_of_mem _ hq))
        have hlength := hp.1
        unfold coHdrSize at hlength
        rw [List.flatten_cons, List.drop_append_of_le_length (by omega)] at hdata
        by_cases hlt : 9 < data.length + k
        · have hclean' : ∀ j < ps.length, p.length + upTo ps j < data.length + k →
              p.length + upTo ps j + 10 ≤ data.length + k := by
            intro j hj hlt'
            have hup : upTo (done ++ p :: ps) (done.length + (j + 1)) = last + (p.length + upTo ps j) := by
              rw [upTo_append, upTo_cons_succ, hlast]
            have hup₀ : upTo (done ++ p :: ps) (done.length + 0) = last := by
              rw [upTo_append, hlast]
              rfl
            have hc := hclean (done.length + 0) (done.length + (j + 1)) (by omega)
              (by rw [List.length_append, List.length_cons]; omega)
            rw [hup, hup₀] at hc
            omega
          obtain ⟨j, ds', hj, hds', hflush⟩ := tcpPaf_flush hp hps hmatches hk hdata hlt hclean'
          rw [hflush]
          have hmid : ((p :: ps.take j).flatten).length = p.length + upTo ps j := by
            rw [List.flatten_cons, List.length_append]
            rfl
          have hnext : At (done ++ p :: ps) ⟨ds', p.length + upTo ps j - k⟩ last pos := by
            refine ⟨done, p :: ps, rfl, hlast, .inr ⟨?_, hds', p :: ps.take j, ps.drop j, ?_, ?_, ?_⟩⟩
            · simp only
              omega
            · exact List.cons_ne_nil _ _
            · rw [List.cons_append, List.take_append_drop]
            · rw [hmid, hposk]
              simp only
              omega
          have hdata' : data ++ r = (done ++ p :: ps).flatten.drop pos := by
            rw [hdata, hposk, hlast, List.flatten_append, List.drop_length_add_append, List.flatten_cons,
              List.drop_append_of_le_length (by omega)]
          apply ih hnext _ hdata' hstart hclean
          rw [if_neg (by simp only; omega)]
          omega
        · obtain ⟨ds', hds', hsearch⟩ := tcpPaf_search hp hmatches hk hdata (by omega)
          rw [hsearch]
          exact ⟨_, _, last, rfl, ⟨done, p :: ps, rfl, hlast, .inl ⟨rfl, k + data.length, by omega, by omega, hds'⟩⟩,
            .nil last⟩
    · rw [if_neg (by omega)] at hfuel ⊢
      by_cases hshort : data.length < f.ahead
      · rw [if_pos hshort]
        refine ⟨_, _, last, rfl, ⟨done, mid ++ ps, rfl, hlast, .inr ⟨?_, hstate, mid, ps, hmid, rfl, ?_⟩⟩, .nil last⟩
        · simp only
          omega
        · simp only
          omega
      · rw [if_neg hshort]
        -- the flush point is reached, and the scan starts again there
        have hpoint : pos + f.ahead = (done ++ mid).flatten.length := by
          rw [hend, hlast, List.flatten_append, List.length_append]
        have hnext : At (done ++ (mid ++ ps)) ⟨f.ds, 0⟩ (pos + f.ahead) (pos + f.ahead) :=
          ⟨done ++ mid, ps, (List.append_assoc _ _ _).symm, hpoint,
            .inl ⟨rfl, 0, Nat.zero_le _, rfl, matches_zero hstate⟩⟩
        have hdata' : data.drop f.ahead ++ r = (done ++ (mid ++ ps)).flatten.drop (pos + f.ahead) := by
          rw [← List.drop_drop, ← hdata, List.drop_append_of_le_length (by omega)]
        have hstop : pos + f.ahead + (data.drop f.ahead).length = pos + data.length := by
          rw [List.length_drop]
          omega
        obtain ⟨f', points, last', hfeed, hat, hends⟩ := ih hnext
          (by rw [if_pos rfl, List.length_drop]; omega) hdata' (by omega) (by rwa [hstop])
        rw [hstop] at hat
        rw [hfeed]
        refine ⟨f', _, last', rfl, hat, .cons ?_ ?_ hends⟩
        · obtain ⟨q, mid, rfl⟩ := List.exists_cons_of_ne_nil hmid
          have hq := (hpdus q (by simp)).1
          unfold coHdrSize at hq
          rw [List.flatten_cons, List.length_append] at hend
          omega
        · have hlen : 0 < mid.length := List.length_pos_iff.2 hmid
          refine ⟨done.length + mid.length - 1, ?_, ?_⟩
          · rw [List.length_append, List.length_append]
            omega
          · rw [show done.length + mid.length - 1 + 1 = done.length + mid.length by omega, upTo_append, hpoint,
              List.flatten_append, List.length_append, upTo, List.take_left']
            rfl

/-! ### All segments -/

/-- All segments of a cut are clean. -/
def CleanCut (pdus segs : List (List UInt8)) : Prop :=
  ∀ pre seg, pre ++ [seg] <+: segs → Clean pdus pre.flatten.length (pre.flatten.length + seg.length)

theorem Ends.append {mid last' : ℕ} {xs ys : List ℕ} (hx : Ends pdus last xs mid) (hy : Ends pdus mid ys last') :
    Ends pdus last (xs ++ ys) last' := by
  induction hx with
  | nil _ => exact hy
  | cons hlt hend _ ih => exact .cons hlt hend (ih hy)

theorem Ends.le {last' : ℕ} {points : List ℕ} (h : Ends pdus last points last') :
    last ≤ last' ∧ ∀ x ∈ points, last < x := by
  induction h with
  | nil _ => exact ⟨le_rfl, fun x hx => absurd hx (by simp)⟩
  | cons hlt _ _ ih =>
    refine ⟨hlt.le.trans ih.1, fun y hy => ?_⟩
    rcases List.mem_cons.1 hy with rfl | hy
    · exact hlt
    · exact hlt.trans (ih.2 y hy)

/-- Flush points ascend to the last one. -/
theorem Ends.ascend {last' : ℕ} {points : List ℕ} (h : Ends pdus last points last') :
    points.Pairwise (· < ·) ∧ (∀ x ∈ points, IsEnd pdus x) ∧ (last' = last ∨ last' ∈ points) := by
  induction h with
  | nil _ => exact ⟨List.Pairwise.nil, fun x hx => absurd hx (by simp), .inl rfl⟩
  | cons hlt hend h ih =>
    obtain ⟨hpair, hends, hlast⟩ := ih
    refine ⟨List.pairwise_cons.2 ⟨h.le.2, hpair⟩, List.forall_mem_cons.2 ⟨hend, hends⟩, .inr ?_⟩
    rcases hlast with rfl | hmem
    · exact List.mem_cons_self
    · exact List.mem_cons_of_mem _ hmem

theorem feedAll_spec (hpdus : ∀ p ∈ pdus, TcpPdu p) {segs : List (List UInt8)} (h : At pdus f last pos)
    (hsegs : segs.flatten ++ r = pdus.flatten.drop pos)
    (hclean : ∀ pre seg, pre ++ [seg] <+: segs →
      Clean pdus (pos + pre.flatten.length) (pos + pre.flatten.length + seg.length)) :
    ∃ points f' last', feedAll f pos segs = some points ∧ At pdus f' last' (pos + segs.flatten.length) ∧
      Ends pdus last points last' := by
  induction segs generalizing f last pos with
  | nil => exact ⟨[], f, last, rfl, h, .nil last⟩
  | cons seg segs ih =>
    rw [List.flatten_cons, List.append_assoc] at hsegs
    obtain ⟨f₁, points₁, last₁, hfeed, hat, hends⟩ := feed_spec hpdus (2 * seg.length + 2) h
      (by split <;> omega) hsegs le_rfl (hclean [] seg (List.cons_prefix_cons.2 ⟨rfl, List.nil_prefix⟩))
    have hrest : segs.flatten ++ r = pdus.flatten.drop (pos + seg.length) := by
      rw [← List.drop_drop, ← hsegs, List.drop_left]
    obtain ⟨points, f', last', hall, hat', hends'⟩ := ih hat hrest (by
      intro pre seg' hpre
      have hc := hclean (seg :: pre) seg' (List.cons_prefix_cons.2 ⟨rfl, hpre⟩)
      rwa [List.flatten_cons, List.length_append, ← Nat.add_assoc] at hc)
    refine ⟨points₁ ++ points, f', last', ?_, ?_, hends.append hends'⟩
    · unfold feedAll
      rw [hfeed, Option.bind_some, hall]
      rfl
    · rwa [List.flatten_cons, List.length_append, ← Nat.add_assoc]

/-- Behind the whole stream its end was the last flush point. -/
theorem At.last_eq (hpdus : ∀ p ∈ pdus, TcpPdu p) (h : At pdus f last pdus.flatten.length) :
    last = pdus.flatten.length := by
  obtain ⟨done, rest, rfl, hlast, ⟨-, k, hk, hpos, -⟩ | ⟨hahead, -, mid, ps, -, rfl, hend⟩⟩ := h
  · rw [List.flatten_append, List.length_append] at hpos ⊢
    cases rest with
    | nil =>
      rw [hlast]
      rfl
    | cons p ps =>
      have hp := (hpdus p (by simp)).1
      unfold coHdrSize at hp
      rw [List.flatten_cons, List.length_append] at hpos
      omega
  · rw [List.flatten_append, List.flatten_append, List.length_append, List.length_append] at hend
    omega

theorem upTo_le (pdus : List (List UInt8)) (i : ℕ) : upTo pdus i ≤ pdus.flatten.length := by
  conv_rhs => rw [← List.take_append_drop i pdus, List.flatten_append, List.length_append]
  exact Nat.le_add_right _ _

/-- **Segmentation**: of a stream of PDUs in clean segments the flush points are ends of PDUs, they ascend, the
callback does not give up, and each PDU with another one behind it is flushed. -/
theorem feedAll_ends (pdus segs : List (List UInt8)) (hpdus : ∀ p ∈ pdus, TcpPdu p)
    (hsegs : segs.flatten = pdus.flatten) (hclean : CleanCut pdus segs) :
    ∃ points, feedAll ⟨newPafTcpState, 0⟩ 0 segs = some points ∧ points.Pairwise (· < ·) ∧
      (∀ x ∈ points, IsEnd pdus x) ∧ ∀ i, i + 1 < pdus.length → ∃ x ∈ points, upTo pdus (i + 1) ≤ x := by
  have hat : At pdus ⟨newPafTcpState, 0⟩ 0 0 :=
    ⟨[], pdus, rfl, rfl, .inl ⟨rfl, 0, Nat.zero_le _, rfl, matches_zero rfl⟩⟩
  obtain ⟨points, f', last', hall, hat', hends⟩ := @feedAll_spec [] pdus _ 0 0 hpdus segs hat
    (by rw [List.append_nil, List.drop_zero, hsegs]) fun pre seg hpre => by
      rw [Nat.zero_add]
      exact hclean pre seg hpre
  rw [Nat.zero_add, hsegs] at hat'
  have hlast := hat'.last_eq hpdus
  obtain ⟨hpair, hpoints, hmem⟩ := hends.ascend
  refine ⟨points, hall, hpair, hpoints, fun i hi => ⟨last', hmem.resolve_left fun hzero => ?_, ?_⟩⟩
  · -- the stream is not empty
    cases pdus with
    | nil => exact absurd hi (by simp)
    | cons p ps =>
      have hp := (hpdus p List.mem_cons_self).1
      unfold coHdrSize at hp
      rw [List.flatten_cons, List.length_append] at hlast
      omega
  · rw [hlast]
    exact upTo_le pdus _

/-- A PDU of sixteen bytes. -/
def shortPdu : List UInt8 := [5, 0, 0, 3, 16, 0, 0, 0, 16, 0, 0, 0, 1, 0, 0, 0]

theorem tcpPdu_shortPdu : TcpPdu shortPdu := by
  unfold TcpPdu
  decide

/-- A PDU in two segments. -/
theorem feedAll_ends_two :
    ∃ points, feedAll ⟨newPafTcpState, 0⟩ 0 [shortPdu.take 5, shortPdu.drop 5] = some points ∧
      points.Pairwise (· < ·) ∧ (∀ x ∈ points, IsEnd [shortPdu] x) ∧
      ∀ i, i + 1 < [shortPdu].length → ∃ x ∈ points, upTo [shortPdu] (i + 1) ≤ x := by
  apply feedAll_ends
  · intro p hp
    obtain rfl := List.mem_singleton.1 hp
    exact tcpPdu_shortPdu
  · rfl
  · intro pre seg _ j i hji hi
    exact absurd hi (by rw [List.length_singleton]; omega)

/-- A segment that ends with the first byte of the second PDU: the second flush point is one byte short. -/
theorem feedAll_misframed :
    (∀ p ∈ [shortPdu, shortPdu], TcpPdu p) ∧
      [shortPdu ++ shortPdu.take 1, shortPdu.drop 1].flatten = [shortPdu, shortPdu].flatten ∧
      feedAll ⟨newPafTcpState, 0⟩ 0 [shortPdu ++ shortPdu.take 1, shortPdu.drop 1] = some [16, 31] ∧
      ¬IsEnd [shortPdu, shortPdu] 31 := by
  refine ⟨fun p hp => ?_, by decide, by decide, ?_⟩
  · have hshort : p = shortPdu := by simpa using hp
    rw [hshort]
    exact tcpPdu_shortPdu
  · rintro ⟨i, hi, hx⟩
    have hcases : i = 0 ∨ i = 1 := by
      rw [List.length_cons, List.length_singleton] at hi
      omega
    rcases hcases with rfl | rfl <;> exact absurd hx (by decide)

end Snort.Dce2
