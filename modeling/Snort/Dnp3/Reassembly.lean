import Mathlib.Tactic

/-!
# Reassembly of transport segments

* `dnp3ReassembleTransport`: the state machine for one segment, with the alternate decode buffer;
* `IsMessage`: the segments of one message;
* **`reassembly_iff`**: when the segments of a message are reassembled, what the alternate decode buffer is
  then, and what a segment that is refused does to the buffered bytes.
-/

namespace Snort.Dnp3

/-- `dnp3_reassembly_state_t`. -/
inductive ReassemblyState
  | idle | assembly | done
  deriving DecidableEq

/-- `dnp3_reassembly_data_t`: `buffer` is what is in use, `buflen` bytes. -/
structure ReassemblyData where
  buffer : List UInt8
  state : ReassemblyState
  lastSeq : ℕ
  deriving DecidableEq

/-- `DecodeBuffer`: the length is there once `SetAltDecode` was called. -/
structure DecodeBuffer where
  data : List UInt8
  len : Option ℕ
  deriving DecidableEq

/-- `DNP3_BUFFER_SIZE`, `DNP3_MAX_TRANSPORT_LEN` and `DECODE_BLEN`. -/
def dnp3BufferSize : ℕ := 2048

def dnp3MaxTransportLen : ℕ := 250

def decodeBlen : ℕ := 65535

/-- `DNP3_OK` and `DNP3_FAIL`. -/
def dnp3Ok : ℤ := 1

def dnp3Fail : ℤ := -1

/-- `DNP3_TRANSPORT_FIR`, `DNP3_TRANSPORT_FIN` and `DNP3_TRANSPORT_SEQ`. -/
def fir (control : UInt8) : Bool := control &&& 0x40 ≠ 0

def fin (control : UInt8) : Bool := control &&& 0x80 ≠ 0

def seq (control : UInt8) : ℕ := (control &&& 0x3f).toNat

def dnp3QueueSegment (rdata : ReassemblyData) (buf : List UInt8) : ℤ × ReassemblyData :=
  if dnp3BufferSize < buf.length + rdata.buffer.length then (dnp3Fail, rdata)
  else (dnp3Ok, { rdata with buffer := rdata.buffer ++ buf })

def dnp3ReassemblyReset (rdata : ReassemblyData) : ReassemblyData :=
  { rdata with buffer := [], state := .idle, lastSeq := 0 }

/-- `SafeMemcpy` to the start of the buffer and `SetAltDecode` with the size of the buffer. -/
def setAltDecode (alt : DecodeBuffer) (buf : List UInt8) : DecodeBuffer :=
  if 0 < buf.length ∧ buf.length ≤ decodeBlen then
    ⟨buf ++ alt.data.drop buf.length, some decodeBlen⟩
  else alt

/-- The first segment is queued on an empty buffer. -/
def queueFirst (rdata : ReassemblyData) (control : UInt8) (buf : List UInt8) : ReassemblyData :=
  { (dnp3QueueSegment (dnp3ReassemblyReset rdata) buf).2 with lastSeq := seq control }

/-- The `switch` over the state. -/
def assemble (rdata : ReassemblyData) (control : UInt8) (buf : List UInt8) : ℤ × ReassemblyData :=
  match rdata.state with
  | .idle =>
    if fir control then
      (dnp3Ok, { queueFirst rdata control buf with
        state := if fin control then .done else .assembly })
    else (dnp3Fail, rdata)
  | .assembly =>
    if fir control then
      -- the state is the one of the reset, unless this is the last segment too
      let rdata := queueFirst rdata control buf
      (dnp3Ok, if fin control then { rdata with state := .done } else rdata)
    else if seq control = rdata.lastSeq ∧ fin control then
      (dnp3Fail, { rdata with state := .done })
    else if seq control ≠ (rdata.lastSeq + 1) % 64 then (dnp3Fail, rdata)
    else
      (dnp3Ok, { (dnp3QueueSegment rdata buf).2 with
        lastSeq := seq control
        state := if fin control then .done else .assembly })
  | .done => (dnp3Ok, rdata)

def dnp3ReassembleTransport (rdata : ReassemblyData) (alt : DecodeBuffer) (buf : List UInt8) :
    ℤ × ReassemblyData × DecodeBuffer :=
  match buf with
  | [] => (dnp3Fail, rdata, alt)
  | control :: data =>
    if dnp3MaxTransportLen < data.length + 1 then (dnp3Fail, rdata, alt)
    else
      let rdata := if rdata.state = .done then dnp3ReassemblyReset rdata else rdata
      let r := assemble rdata control data
      if r.1 = dnp3Fail then (dnp3Fail, r.2, alt)
      else (dnp3Ok, r.2, if r.2.state = .done then setAltDecode alt r.2.buffer else alt)

/-- The segments one after the other. -/
def run (s : ReassemblyData × DecodeBuffer) (bufs : List (List UInt8)) : ReassemblyData × DecodeBuffer :=
  bufs.foldl (fun s buf => (dnp3ReassembleTransport s.1 s.2 buf).2) s

/-- A new session, and a decode buffer that is not in use. -/
def start (data : List UInt8) : ReassemblyData × DecodeBuffer := (⟨[], .idle, 0⟩, ⟨data, none⟩)

/-! ### Messages -/

/-- A segment: its control byte and its data. -/
structure Segment where
  control : UInt8
  data : List UInt8

def Segment.bytes (s : Segment) : List UInt8 := s.control :: s.data

/-- The segments of a message behind the one with the sequence number `lastSeq`. -/
def Continues : ℕ → List Segment → Prop
  | _, [] => True
  | lastSeq, s :: segs =>
    fir s.control = false ∧ (fin s.control = true ↔ segs = []) ∧ seq s.control = (lastSeq + 1) % 64 ∧
      s.data.length < dnp3MaxTransportLen ∧ Continues (seq s.control) segs

/-- A message: the first segment and the last one are marked, and the numbers are consecutive. -/
def IsMessage : List Segment → Prop
  | [] => False
  | s :: segs =>
    fir s.control = true ∧ (fin s.control = true ↔ segs = []) ∧ s.data.length < dnp3MaxTransportLen ∧
      Continues (seq s.control) segs

/-- The data of segments. -/
def payload (segs : List Segment) : List UInt8 := segs.flatMap Segment.data

/-! ### Reassembly -/

variable {rdata : ReassemblyData} {alt : DecodeBuffer}

/-- A segment that is long enough and not too long. -/
theorem transport_bytes (s : Segment) (hlen : s.data.length < dnp3MaxTransportLen) :
    dnp3ReassembleTransport rdata alt s.bytes =
      let r := assemble (if rdata.state = .done then dnp3ReassemblyReset rdata else rdata) s.control s.data
      if r.1 = dnp3Fail then (dnp3Fail, r.2, alt)
      else (dnp3Ok, r.2, if r.2.state = .done then setAltDecode alt r.2.buffer else alt) := by
  unfold dnp3ReassembleTransport Segment.bytes
  simp only
  rw [if_neg (by omega)]

theorem queueFirst_eq (control : UInt8) {data : List UInt8} (hlen : data.length < dnp3MaxTransportLen) :
    queueFirst rdata control data = ⟨data, .idle, seq control⟩ := by
  unfold queueFirst dnp3QueueSegment dnp3ReassemblyReset
  have hfits : ¬dnp3BufferSize < data.length + ([] : List UInt8).length := by
    unfold dnp3MaxTransportLen at hlen
    unfold dnp3BufferSize
    rw [List.length_nil]
    omega
  simp only [if_neg hfits, List.nil_append]

/-- What is set for detection behind a segment that is queued. -/
def altBehind (alt : DecodeBuffer) (control : UInt8) (buffer : List UInt8) : DecodeBuffer :=
  if fin control then setAltDecode alt buffer else alt

theorem transport_first (s : Segment) (hfir : fir s.control = true)
    (hlen : s.data.length < dnp3MaxTransportLen) :
    dnp3ReassembleTransport rdata alt s.bytes =
      (dnp3Ok,
        ⟨s.data, if fin s.control then .done else if rdata.state = .assembly then .idle else .assembly,
          seq s.control⟩,
        altBehind alt s.control s.data) := by
  rw [transport_bytes s hlen]
  unfold assemble altBehind
  have hidle : (dnp3ReassemblyReset rdata).state = .idle := rfl
  cases hstate : rdata.state with
  | idle =>
    simp only [reduceCtorEq, if_false, hstate, hfir, if_true, queueFirst_eq s.control hlen]
    cases fin s.control with
    | true => rfl
    | false => rfl
  | done =>
    simp only [reduceCtorEq, if_false, if_true, hidle, hfir, queueFirst_eq s.control hlen]
    cases fin s.control with
    | true => rfl
    | false => rfl
  | assembly =>
    simp only [reduceCtorEq, if_false, if_true, hstate, hfir, queueFirst_eq s.control hlen]
    cases fin s.control with
    | true => rfl
    | false => rfl

theorem transport_next (s : Segment) (hstate : rdata.state = .assembly) (hfir : fir s.control = false)
    (hseq : seq s.control = (rdata.lastSeq + 1) % 64) (hlen : s.data.length < dnp3MaxTransportLen)
    (hfits : (rdata.buffer ++ s.data).length ≤ dnp3BufferSize) :
    dnp3ReassembleTransport rdata alt s.bytes =
      (dnp3Ok, ⟨rdata.buffer ++ s.data, if fin s.control then .done else .assembly, seq s.control⟩,
        altBehind alt s.control (rdata.buffer ++ s.data)) := by
  rw [transport_bytes s hlen]
  unfold assemble altBehind dnp3QueueSegment
  have hsame : ¬(seq s.control = rdata.lastSeq ∧ fin s.control = true) := by omega
  have hroom : ¬dnp3BufferSize < s.data.length + rdata.buffer.length := by
    rw [List.length_append] at hfits
    omega
  have hdone : ¬rdata.state = .done := by
    rw [hstate]
    exact ReassemblyState.noConfusion
  have hnext : ¬seq s.control ≠ (rdata.lastSeq + 1) % 64 := fun h => h hseq
  rw [if_neg hdone, hstate]
  simp only [hfir, if_neg hsame, if_neg hnext, if_neg hroom]
  cases fin s.control with
  | true => rfl
  | false => rfl

theorem transport_idle (s : Segment) (hstate : rdata.state = .idle) (hfir : fir s.control = false)
    (hlen : s.data.length < dnp3MaxTransportLen) :
    dnp3ReassembleTransport rdata alt s.bytes = (dnp3Fail, rdata, alt) := by
  rw [transport_bytes s hlen]
  unfold assemble
  simp only [hstate, reduceCtorEq, if_false, hfir, if_true, Bool.false_eq_true]

theorem take_setAltDecode {buffer : List UInt8} (h : buffer.length ≤ dnp3BufferSize) :
    (setAltDecode alt buffer).data.take buffer.length = buffer := by
  unfold setAltDecode
  by_cases hpos : 0 < buffer.length
  · have hblen : buffer.length ≤ decodeBlen := h.trans (by decide)
    rw [if_pos ⟨hpos, hblen⟩]
    exact List.take_left
  · have hnil : buffer = [] := List.eq_nil_of_length_eq_zero (by omega)
    rw [hnil]
    rfl

theorem run_cons (s : ReassemblyData × DecodeBuffer) (buf : List UInt8) (bufs : List (List UInt8)) :
    run s (buf :: bufs) = run (dnp3ReassembleTransport s.1 s.2 buf).2 bufs :=
  rfl

/-- The segments behind the first one are queued while a message is assembled. -/
theorem run_continues (segs : List Segment) (hne : segs ≠ []) (h : Continues rdata.lastSeq segs)
    (hstate : rdata.state = .assembly) (hfits : (rdata.buffer ++ payload segs).length ≤ dnp3BufferSize) :
    let after := run (rdata, alt) (segs.map Segment.bytes)
    after.1.state = .done ∧ after.1.buffer = rdata.buffer ++ payload segs ∧
      after.2.data.take (rdata.buffer ++ payload segs).length = rdata.buffer ++ payload segs := by
  induction segs generalizing rdata alt with
  | nil => exact absurd rfl hne
  | cons s segs ih =>
    obtain ⟨hfir, hfin, hseq, hlen, hrest⟩ := h
    have hpayload : payload (s :: segs) = s.data ++ payload segs := List.flatMap_cons
    rw [hpayload, ← List.append_assoc] at hfits ⊢
    have hfits' : (rdata.buffer ++ s.data).length ≤ dnp3BufferSize := by
      rw [List.length_append] at hfits
      omega
    rw [List.map_cons, run_cons]
    simp only
    rw [transport_next s hstate hfir hseq hlen hfits']
    unfold altBehind
    by_cases hlast : segs = []
    · subst hlast
      have hfinal : fin s.control = true := hfin.2 rfl
      rw [hfinal]
      have hnil : payload [] = [] := rfl
      rw [hnil, List.append_nil]
      exact ⟨rfl, rfl, take_setAltDecode hfits'⟩
    · have hmore : fin s.control = false := by
        rw [← Bool.not_eq_true]
        exact fun h => hlast (hfin.1 h)
      rw [hmore]
      exact ih hlast hrest rfl hfits

/-- They are discarded behind a reset. -/
theorem run_discarded (segs : List Segment) {lastSeq : ℕ} (h : Continues lastSeq segs)
    (hstate : rdata.state = .idle) : run (rdata, alt) (segs.map Segment.bytes) = (rdata, alt) := by
  induction segs generalizing lastSeq with
  | nil => rfl
  | cons s segs ih =>
    obtain ⟨hfir, -, -, hlen, hrest⟩ := h
    rw [List.map_cons, run_cons]
    simp only
    rw [transport_idle s hstate hfir hlen]
    exact ih hrest

/-- The length that is set is always the size of the buffer. -/
theorem len_run (bufs : List (List UInt8)) (s : ReassemblyData × DecodeBuffer)
    (h : s.2.len = none ∨ s.2.len = some decodeBlen) :
    (run s bufs).2.len = none ∨ (run s bufs).2.len = some decodeBlen := by
  have hset : ∀ (alt : DecodeBuffer) (buffer : List UInt8), (alt.len = none ∨ alt.len = some decodeBlen) →
      (setAltDecode alt buffer).len = none ∨ (setAltDecode alt buffer).len = some decodeBlen := by
    intro alt buffer halt
    unfold setAltDecode
    split
    · exact .inr rfl
    · exact halt
  induction bufs generalizing s with
  | nil => exact h
  | cons buf bufs ih =>
    rw [run_cons]
    apply ih
    unfold dnp3ReassembleTransport
    cases buf with
    | nil => exact h
    | cons control data =>
      simp only
      split
      · exact h
      · generalize assemble (if s.1.state = .done then dnp3ReassemblyReset s.1 else s.1) control data = r
        split
        · exact h
        · simp only
          split
          · exact hset _ _ h
          · exact h

theorem assemble_fail (control : UInt8) (data : List UInt8)
    (hfail : (assemble rdata control data).1 = dnp3Fail) :
    (assemble rdata control data).2.buffer = rdata.buffer := by
  have hok : dnp3Ok ≠ dnp3Fail := by decide
  unfold assemble at hfail ⊢
  cases hstate : rdata.state with
  | idle =>
    simp only [hstate] at hfail ⊢
    split at hfail
    · exact absurd hfail hok
    · next hfir => rw [if_neg hfir]
  | assembly =>
    simp only [hstate] at hfail ⊢
    split at hfail
    · exact absurd hfail hok
    · next hfir =>
      rw [if_neg hfir]
      split
      · rfl
      · next hsame =>
        rw [if_neg hsame] at hfail
        split at hfail
        · next hseq => rw [if_pos hseq]
        · exact absurd hfail hok
  | done => rfl

/-- A segment that is refused leaves the buffered bytes, unless a message was done before it. -/
theorem buffer_of_fail (buf : List UInt8) (hfail : (dnp3ReassembleTransport rdata alt buf).1 = dnp3Fail) :
    (dnp3ReassembleTransport rdata alt buf).2.1.buffer = rdata.buffer ↔
      (rdata.state = .done → rdata.buffer = [] ∨ buf = [] ∨ dnp3MaxTransportLen < buf.length) := by
  unfold dnp3ReassembleTransport at hfail ⊢
  cases buf with
  | nil => exact iff_of_true rfl fun _ => .inr (.inl rfl)
  | cons control data =>
    simp only at hfail ⊢
    by_cases hlong : dnp3MaxTransportLen < data.length + 1
    · rw [if_pos hlong]
      exact iff_of_true rfl fun _ => .inr (.inr hlong)
    · rw [if_neg hlong] at hfail ⊢
      by_cases hr : (assemble (if rdata.state = .done then dnp3ReassemblyReset rdata else rdata)
          control data).1 = dnp3Fail
      · rw [if_pos hr]
        simp only
        rw [assemble_fail control data hr]
        by_cases hdone : rdata.state = .done
        · rw [if_pos hdone]
          unfold dnp3ReassemblyReset
          constructor
          · exact fun h _ => .inl h.symm
          · intro h
            rcases h hdone with h | h | h
            · exact h.symm
            · exact absurd h (List.cons_ne_nil _ _)
            · exact absurd h hlong
        · rw [if_neg hdone]
          exact iff_of_true rfl fun h => absurd h hdone
      · rw [if_neg hr] at hfail
        have hok : dnp3Ok = dnp3Fail := hfail
        exact absurd hok (by decide)

/-- **A message from any state.** Behind all segments that came before, the segments of a message that fits
the buffer are reassembled if and only if no message was left unfinished, or there is only one of them; the
decode buffer then starts with the message. The length that is set for detection is never its length. A segment
that is refused leaves the buffered bytes if and only if no message was done, or an empty one, or it has no or
too many bytes. -/
theorem reassembly_iff (data : List UInt8) (earlier : List (List UInt8)) (segs : List Segment)
    (hmessage : IsMessage segs) (hfits : (payload segs).length ≤ dnp3BufferSize) :
    let before := run (start data) earlier
    let after := run before (segs.map Segment.bytes)
    (after.1.state = .done ∧ after.1.buffer = payload segs ↔
      before.1.state ≠ .assembly ∨ segs.length = 1) ∧
    (after.1.state = .done → after.2.data.take (payload segs).length = payload segs) ∧
    after.2.len ≠ some (payload segs).length ∧
    ∀ buf, (dnp3ReassembleTransport before.1 before.2 buf).1 = dnp3Fail →
      ((dnp3ReassembleTransport before.1 before.2 buf).2.1.buffer = before.1.buffer ↔
        (before.1.state = .done → before.1.buffer = [] ∨ buf = [] ∨ dnp3MaxTransportLen < buf.length)) := by
  intro before after
  have hlen : after.2.len ≠ some (payload segs).length := by
    have hnever : some decodeBlen ≠ some (payload segs).length := by
      intro h
      have := Option.some.inj h
      unfold decodeBlen dnp3BufferSize at *
      omega
    rcases len_run (segs.map Segment.bytes) before (len_run earlier (start data) (.inl rfl)) with h | h
    · rw [h]
      exact (Option.some_ne_none _).symm
    · rw [h]
      exact hnever
  have hcases : (after.1.state = .done ∧ after.1.buffer = payload segs ↔
        before.1.state ≠ .assembly ∨ segs.length = 1) ∧
      (after.1.state = .done → after.2.data.take (payload segs).length = payload segs) := by
    clear hlen
    simp only [after]
    generalize before = s
    obtain ⟨rdata, alt⟩ := s
    cases segs with
    | nil => exact hmessage.elim
    | cons s segs =>
      obtain ⟨hfir, hfin, hshort, hrest⟩ := hmessage
      have hpayload : payload (s :: segs) = s.data ++ payload segs := List.flatMap_cons
      rw [hpayload] at hfits ⊢
      rw [List.map_cons, run_cons]
      simp only
      rw [transport_first s hfir hshort]
      unfold altBehind
      by_cases hlast : segs = []
      · subst hlast
        have hfinal : fin s.control = true := hfin.2 rfl
        have hnil : payload [] = [] := rfl
        rw [hnil, List.append_nil] at hfits ⊢
        rw [hfinal]
        exact ⟨iff_of_true ⟨rfl, rfl⟩ (.inr rfl), fun _ => take_setAltDecode hfits⟩
      · have hmore : fin s.control = false := by
          rw [← Bool.not_eq_true]
          exact fun h => hlast (hfin.1 h)
        rw [hmore]
        by_cases hstate : rdata.state = .assembly
        · -- the first segment leaves the state of a reset
          simp only [hstate, if_true, Bool.false_eq_true, if_false]
          rw [run_discarded segs hrest rfl]
          exact ⟨iff_of_false (fun h => ReassemblyState.noConfusion h.1) (by simp [hlast]),
            fun h => ReassemblyState.noConfusion h⟩
        · simp only [hstate, if_false, Bool.false_eq_true]
          obtain ⟨hdone, hbuffer, htake⟩ := @run_continues ⟨s.data, .assembly, seq s.control⟩
            alt segs hlast hrest rfl hfits
          exact ⟨iff_of_true ⟨hdone, hbuffer⟩ (.inl hstate), fun _ => htake⟩
  exact ⟨hcases.1, hcases.2, hlen, fun buf hfail => buffer_of_fail buf hfail⟩

/-! ### A message that is abandoned -/

/-- The first segment of a message that is not finished. -/
def unfinished : List (List UInt8) := [[0x40, 1]]

/-- A message of two segments. -/
def twoSegments : List Segment := [⟨0x45, [2, 3]⟩, ⟨0x86, [4]⟩]

theorem isMessage_twoSegments : IsMessage twoSegments :=
  ⟨by decide, by decide, by decide, by decide, by decide, by decide, by decide, trivial⟩

theorem reassembly_twoSegments :
    let before := run (start []) [[0xc1, 1], [0x02]]
    let after := run before (twoSegments.map Segment.bytes)
    (after.1.state = .done ∧ after.1.buffer = payload twoSegments ↔
      before.1.state ≠ .assembly ∨ twoSegments.length = 1) ∧
    (after.1.state = .done → after.2.data.take (payload twoSegments).length = payload twoSegments) ∧
    after.2.len ≠ some (payload twoSegments).length ∧
    ∀ buf, (dnp3ReassembleTransport before.1 before.2 buf).1 = dnp3Fail →
      ((dnp3ReassembleTransport before.1 before.2 buf).2.1.buffer = before.1.buffer ↔
        (before.1.state = .done → before.1.buffer = [] ∨ buf = [] ∨ dnp3MaxTransportLen < buf.length)) :=
  reassembly_iff [] [[0xc1, 1], [0x02]] twoSegments isMessage_twoSegments (by decide)

/-- Behind a first segment without the rest of its message, the next message is lost; the length for detection
is wrong in any case; and a segment that is refused drops the message before it. -/
theorem message_lost :
    IsMessage twoSegments ∧
    (run (run (start []) unfinished) (twoSegments.map Segment.bytes)).1.state ≠ .done ∧
    (run (start []) (twoSegments.map Segment.bytes)).2.len ≠ some (payload twoSegments).length ∧
    (dnp3ReassembleTransport (run (start []) (twoSegments.map Segment.bytes)).1 ⟨[], none⟩ [0x07, 5]).1 =
      dnp3Fail ∧
    (dnp3ReassembleTransport (run (start []) (twoSegments.map Segment.bytes)).1 ⟨[], none⟩
      [0x07, 5]).2.1.buffer ≠ (run (start []) (twoSegments.map Segment.bytes)).1.buffer :=
  ⟨isMessage_twoSegments, by decide⟩

end Snort.Dnp3
