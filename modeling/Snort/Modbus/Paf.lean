import Snort.Lib.Feed

/-!
# Flush points of Modbus messages: `modbus_paf.c`

* `modbusPaf`: the callback; the alert on a bad length is left out;
* `Adu`: a message, with its header; `ends`: where messages end;
* `points_stream`: the callback stops at the byte behind each header, and announces the end of the message;
* **`modbus_located_iff`**: the flush points are the ends, and all offsets at least 1, if and only if no message
  without contents ends where a segment does.
-/

namespace Snort.Modbus

open Scanner Feed

abbrev Byte := BitVec 8

/-- `modbus_paf_state_t`. -/
inductive PafState
  | transId1 | transId2 | protoId1 | protoId2 | length1 | length2 | setFlush
  deriving DecidableEq

/-- `modbus_paf_data_t`. -/
structure PafData where
  state : PafState
  modbusLength : BitVec 16
  deriving DecidableEq

/-- A byte of the loop of `ModbusPaf`; behind a flush point the data are as they were allocated. -/
def pafByte (pafdata : PafData) (b : Byte) : PafData ⊕ Option ℤ :=
  match pafdata.state with
  | .transId1 => .inl { pafdata with state := .transId2 }
  | .transId2 => .inl { pafdata with state := .protoId1 }
  | .protoId1 => .inl { pafdata with state := .protoId2 }
  | .protoId2 => .inl { pafdata with state := .length1 }
  | .length1 => .inl ⟨.length2, pafdata.modbusLength ||| b.setWidth 16 <<< 8⟩
  | .length2 => .inl ⟨.setFlush, pafdata.modbusLength ||| b.setWidth 16⟩
  | .setFlush => .inr (some pafdata.modbusLength.toNat)

/-- `ModbusPaf`, called for all data of a session. -/
def modbusPaf : Callback PafData Byte := ⟨⟨.transId1, 0#16⟩, pafByte⟩

/-! ### Messages -/

/-- A message: the identifiers in front of the length, and the contents. -/
structure Adu where
  ids : Vector Byte 4
  body : List Byte
  size : body.length < 65536

/-- The bytes of a message; the length is big-endian. -/
def Adu.bytes (m : Adu) : List Byte :=
  [m.ids[0], m.ids[1], m.ids[2], m.ids[3], .ofNat 8 (m.body.length / 256), .ofNat 8 m.body.length] ++ m.body

/-- The bytes of some messages. -/
def stream (ms : List Adu) : List Byte := (ms.map Adu.bytes).flatten

@[simp] theorem stream_nil : stream [] = [] := rfl

@[simp] theorem stream_cons (m : Adu) (ms : List Adu) : stream (m :: ms) = m.bytes ++ stream ms := rfl

@[simp] theorem stream_append (ms ms' : List Adu) : stream (ms ++ ms') = stream ms ++ stream ms' := by
  simp [stream]

@[simp] theorem Adu.length_bytes (m : Adu) : m.bytes.length = m.body.length + 6 := by
  simp [Adu.bytes]

/-- Where messages end, from a position on. -/
def ends : ℕ → List Adu → List ℕ
  | _, [] => []
  | q, m :: ms => (q + m.bytes.length) :: ends (q + m.bytes.length) ms

/-- Where the callback stops, and the flush points; it does not see the end of a last message without
contents. -/
def marks : ℕ → List Adu → List (ℕ × ℕ)
  | _, [] => []
  | q, m :: ms =>
    if m.body ++ stream ms = [] then []
    else (q + 6, q + m.bytes.length) :: marks (q + m.bytes.length) ms

/-! ### The callback on a message -/

/-- The two bytes of a length give the length. -/
theorem length_eq {n : ℕ} (h : n < 65536) :
    (0#16 ||| (BitVec.ofNat 8 (n / 256)).setWidth 16 <<< 8) ||| (BitVec.ofNat 8 n).setWidth 16 =
      BitVec.ofNat 16 n := by
  have hlow : n % 256 < 2 ^ 8 := Nat.mod_lt _ (by norm_num)
  have hshift : (n / 256) <<< 8 = n / 256 * 256 := Nat.shiftLeft_eq _ _
  rw [BitVec.zero_or]
  apply BitVec.eq_of_toNat_eq
  simp only [BitVec.toNat_or, BitVec.toNat_shiftLeft, BitVec.toNat_setWidth, BitVec.toNat_ofNat, Nat.reducePow]
  rw [Nat.mod_eq_of_lt (by omega : n / 256 < 256), Nat.mod_eq_of_lt (by omega : n / 256 < 65536), hshift,
    Nat.mod_eq_of_lt (by omega : n / 256 * 256 < 65536), Nat.mod_eq_of_lt (by omega : n % 256 < 65536), ← hshift,
    ← Nat.shiftLeft_add_eq_or_of_lt hlow, hshift]
  omega

/-- The callback stops at the byte behind a header. -/
theorem run_message (m : Adu) (rest : List Byte) :
    run pafByte modbusPaf.start (m.bytes ++ rest) =
      if m.body ++ rest = [] then .more ⟨.setFlush, .ofNat 16 m.body.length⟩
      else .stop (some m.body.length) 7 := by
  have hlength := length_eq m.size
  have hN : (BitVec.ofNat 16 m.body.length).toNat = m.body.length := by
    rw [BitVec.toNat_ofNat, Nat.mod_eq_of_lt m.size]
  rw [Adu.bytes, List.append_assoc]
  generalize m.body ++ rest = tail
  simp only [List.cons_append, List.nil_append]
  rw [run_cons_inl _ rfl, run_cons_inl _ rfl, run_cons_inl _ rfl, run_cons_inl _ rfl, run_cons_inl _ rfl,
    run_cons_inl _ rfl]
  simp only [modbusPaf, hlength]
  cases tail with
  | nil => rfl
  | cons b tail =>
    rw [run_cons_inr _ rfl, if_neg (List.cons_ne_nil _ _)]
    simp only [Outcome.shift_stop, hN]

theorem advances : modbusPaf.Advances := by
  intro data d n h
  have hn := two_le_of_stop (fun c => ⟨_, rfl⟩) h
  obtain ⟨s, b, hstep⟩ := exists_of_stop h
  have hd : 0 ≤ d := by
    simp only [modbusPaf, pafByte] at hstep
    split at hstep <;> cases hstep
    exact Int.natCast_nonneg _
  omega

/-- The callback stops, and announces flush points, in a stream of messages as they are marked. -/
theorem points_stream (q : ℕ) (ms : List Adu) : modbusPaf.Points q (stream ms) (marks q ms) := by
  induction ms generalizing q with
  | nil => exact .done fun d n h => by cases h
  | cons m ms ih =>
    have hrun := run_message m (stream ms)
    rw [marks, stream_cons]
    by_cases hempty : m.body ++ stream ms = []
    · rw [if_pos hempty] at hrun ⊢
      exact .done fun d n h => by
        rw [show modbusPaf.step = pafByte from rfl, hrun] at h
        cases h
    · rw [if_neg hempty] at hrun ⊢
      refine .flush (n := 7) (p := m.bytes.length) hrun ?_ ?_
      · rw [m.length_bytes]
        push_cast
        ring
      · rw [List.drop_left]
        exact ih _

/-- The offset of a call is the exact one. -/
theorem exact_of_length {c : Call PafData Byte} (hc : c.data.length < 2 ^ 31) : modbusPaf.Exact c := by
  intro d n h
  obtain ⟨hn, hle⟩ := length_of_stop h
  obtain ⟨s, b, hstep⟩ := exists_of_stop h
  have hd : 0 ≤ d ∧ d < 65536 := by
    simp only [modbusPaf, pafByte] at hstep
    split at hstep <;> cases hstep
    exact ⟨Int.natCast_nonneg _, by exact_mod_cast s.modbusLength.isLt⟩
  omega

/-! ### Messages without contents -/

theorem mem_marks {q i e : ℕ} {ms : List Adu} (h : (i, e) ∈ marks q ms) :
    ∃ before m after, ms = before ++ m :: after ∧ i = q + (stream before).length + 6 ∧
      e = q + (stream (before ++ [m])).length := by
  induction ms generalizing q with
  | nil => cases h
  | cons m ms ih =>
    rw [marks] at h
    split at h
    · cases h
    · rcases List.mem_cons.1 h with h | h
      · cases h
        exact ⟨[], m, ms, rfl, by simp, by simp⟩
      · obtain ⟨before, m', after, rfl, rfl, rfl⟩ := ih h
        exact ⟨m :: before, m', after, rfl, by simp; omega, by simp; omega⟩

theorem stream_eq_nil {ms : List Adu} : stream ms = [] ↔ ms = [] := by
  cases ms with
  | nil => simp
  | cons m ms => simp [Adu.bytes]

/-- A message that is not the last one is marked. -/
theorem marks_mem (q : ℕ) (before : List Adu) (m : Adu) {after : List Adu} (hafter : after ≠ []) :
    (q + (stream before).length + 6, q + (stream (before ++ [m])).length) ∈ marks q (before ++ m :: after) := by
  induction before generalizing q with
  | nil =>
    rw [List.nil_append, marks, if_neg (by simp [stream_eq_nil, hafter])]
    exact List.mem_cons.2 (Or.inl (by simp))
  | cons m' before ih =>
    have hne : ¬m'.body ++ stream (before ++ m :: after) = [] := fun h => by
      simpa using stream_eq_nil.1 (List.append_eq_nil_iff.1 h).2
    rw [List.cons_append, marks, if_neg hne]
    refine List.mem_cons_of_mem _ ?_
    have hq := ih (q + m'.bytes.length)
    simp only [stream_cons, stream_append, List.length_append, List.cons_append, ← Nat.add_assoc] at hq ⊢
    exact hq

/-- All messages but a last one without contents are marked. -/
theorem map_marks_eq (q : ℕ) (ms : List Adu) :
    (marks q ms).map Prod.snd = ends q ms ↔ ∀ before m, ms = before ++ [m] → m.body ≠ [] := by
  induction ms generalizing q with
  | nil => simp [marks, ends]
  | cons m ms ih =>
    rw [marks, ends]
    by_cases hlast : m.body ++ stream ms = []
    · obtain ⟨hbody, hms⟩ := List.append_eq_nil_iff.1 hlast
      obtain rfl := stream_eq_nil.1 hms
      rw [if_pos hlast]
      exact iff_of_false (by simp) fun h => h [] m rfl hbody
    · rw [if_neg hlast, List.map_cons, List.cons.injEq, and_iff_right rfl, ih]
      constructor
      · rintro h before m' heq
        cases before with
        | nil =>
          obtain ⟨rfl, rfl⟩ : m = m' ∧ ms = [] := by simpa using heq
          simpa using hlast
        | cons m'' before =>
          obtain ⟨rfl, rfl⟩ : m = m'' ∧ ms = before ++ [m'] := by simpa using heq
          exact h before m' rfl
      · rintro h before m' rfl
        exact h (m :: before) m' rfl

/-- The flush points are the ends of the messages, and every offset is at least 1. -/
def Located (ms : List Adu) (segs : List (List Byte)) : Prop :=
  modbusPaf.flushPoints segs = ends 0 ms ∧
    ∀ c ∈ modbusPaf.calls segs, ∀ i fp, modbusPaf.announced c = some (i, fp) → 1 ≤ fp

/-- A message without contents ends where a segment does. -/
def EmptyAtBoundary (ms : List Adu) (segs : List (List Byte)) : Prop :=
  ∃ before m after, ms = before ++ m :: after ∧ m.body = [] ∧ Boundary segs (stream (before ++ [m])).length

theorem events_stream {ms : List Adu} {segs : List (List Byte)} (hsegs : segs.flatten = stream ms)
    (hlen : ∀ seg ∈ segs, seg.length ≤ 2 ^ 31 - 1) : modbusPaf.events (modbusPaf.calls segs) = marks 0 ms := by
  have hpoints : modbusPaf.Points 0 segs.flatten (marks 0 ms) := by
    rw [hsegs]
    exact points_stream 0 ms
  refine (Callback.events_eq advances hpoints fun c hc _ => exact_of_length ?_).1
  have := Callback.length_data_le hlen hc
  omega

/-- The end of a message without contents, where a segment ends, is announced with the offset 0 or not at
all. -/
theorem not_located_of_empty {ms : List Adu} {segs : List (List Byte)} (hsegs : segs.flatten = stream ms)
    (hlen : ∀ seg ∈ segs, seg.length ≤ 2 ^ 31 - 1) (h : EmptyAtBoundary ms segs) : ¬Located ms segs := by
  rintro ⟨hpoints, hoffsets⟩
  obtain ⟨before, m, after, rfl, hbody, hboundary⟩ := h
  have hevents := events_stream hsegs hlen
  rw [Callback.flushPoints, hevents, map_marks_eq] at hpoints
  cases after with
  | nil => exact hpoints before m rfl hbody
  | cons m' after =>
    have hmark := marks_mem 0 before m (List.cons_ne_nil m' after)
    rw [← hevents, Callback.mem_events] at hmark
    obtain ⟨c, hc, ⟨i, fp⟩, hann, hi, hfp⟩ := hmark
    obtain ⟨d, n, -, rfl, -, hn, hle⟩ := Callback.run_of_announced hann
    have hone := hoffsets c hc _ _ hann
    simp only [stream_append, stream_cons, stream_nil, List.append_nil, List.length_append, Adu.length_bytes, hbody,
      List.length_nil] at hi hfp hboundary
    exact Callback.not_boundary_inside hc (by omega) (by omega) hboundary

/-- **Modbus messages**: for every cut into segments the flush points are the ends of the messages, and every
offset is at least 1, if and only if no message without contents ends where a segment does. -/
theorem modbus_located_iff (ms : List Adu) (segs : List (List Byte)) (hsegs : segs.flatten = stream ms)
    (hlen : ∀ seg ∈ segs, seg.length ≤ 2 ^ 31 - 1) : Located ms segs ↔ ¬EmptyAtBoundary ms segs := by
  refine ⟨fun h hempty => not_located_of_empty hsegs hlen hempty h, fun hempty => ⟨?_, ?_⟩⟩
  · rw [Callback.flushPoints, events_stream hsegs hlen, map_marks_eq]
    rintro before m rfl hbody
    refine hempty ⟨before, m, [], rfl, hbody, segs, [], (List.append_nil _).symm, ?_⟩
    rw [hsegs]
  · intro c hc i fp hann
    by_contra hzero
    obtain ⟨d, n, hrun, rfl, hfp, hn, hle⟩ := Callback.run_of_announced hann
    have hexact := exact_of_length (c := c) (by have := Callback.length_data_le hlen hc; omega) d n hrun
    have hd : (n : ℤ) - 1 + d = 0 := by
      unfold CInt.u32 at hfp
      omega
    have hn1 : n = 1 := by
      obtain ⟨s, b, hstep⟩ := exists_of_stop hrun
      have : 0 ≤ d := by
        simp only [modbusPaf, pafByte] at hstep
        split at hstep <;> cases hstep
        exact Int.natCast_nonneg _
      omega
    have hstart : c.s ≠ modbusPaf.start := by
      intro hs
      have := two_le_of_stop (fun b => ⟨_, by rw [hs]; rfl⟩) hrun
      omega
    have hmark : (c.pos, c.pos) ∈ marks 0 ms := by
      rw [← events_stream hsegs hlen, Callback.mem_events]
      exact ⟨c, hc, _, hann, by simp [hn1], by simp; omega⟩
    obtain ⟨before, m, after, rfl, hi, he⟩ := mem_marks hmark
    refine hempty ⟨before, m, after, rfl, ?_, ?_⟩
    · simp only [stream_append, stream_cons, stream_nil, List.append_nil, List.length_append, Adu.length_bytes]
        at he
      exact List.length_eq_zero_iff.1 (by omega)
    · rw [← Nat.zero_add (stream (before ++ [m])).length, ← he]
      exact Callback.boundary_of_ne_start hc hstart

/-- A message with one byte. -/
def shortAdu : Adu := ⟨#v[0, 1, 0, 0], [3], by decide⟩

/-- A message without contents. -/
def emptyAdu : Adu := ⟨#v[0, 1, 0, 0], [], by decide⟩

theorem modbus_located_iff_shortAdu :
    Located [emptyAdu, shortAdu] [stream [emptyAdu, shortAdu]] ↔
      ¬EmptyAtBoundary [emptyAdu, shortAdu] [stream [emptyAdu, shortAdu]] :=
  modbus_located_iff [emptyAdu, shortAdu] [stream [emptyAdu, shortAdu]] (by decide) (by decide)

/-- A segment ends with a message without contents: its end is announced with the offset 0. -/
theorem empty_message_offset :
    ¬∀ ms segs, segs.flatten = stream ms → (∀ seg ∈ segs, seg ≠ []) → Located ms segs := by
  intro h
  obtain ⟨-, hoffsets⟩ := h [emptyAdu, shortAdu] [stream [emptyAdu], stream [shortAdu]] (by decide) (by decide)
  exact absurd (hoffsets ⟨6, ⟨.setFlush, 0⟩, stream [shortAdu]⟩ (by decide) 0 0 (by decide)) (by decide)

end Snort.Modbus
