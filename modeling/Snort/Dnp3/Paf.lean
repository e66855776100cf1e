import Snort.Lib.Feed

/-!
# Flush points of DNP3 link frames: `dnp3_paf.c`

* `dnp3Paf`: the callback;
* `LinkFrame`, `Piece`: a frame with the junk in front of it; `ends`: where frames end;
* `run_junk`: the state behind junk depends on the number of start bytes that it ends with;
* **`dnp3_located`**: where that number is even the flush points are the ends of the frames;
* `frame_missed`: where it is odd the start of the frame is not seen.
-/

namespace Snort.Dnp3

open Scanner Feed

/-- `DNP3_START_BYTE_1`, `DNP3_START_BYTE_2`, `DNP3_HEADER_REMAINDER_LEN`, `DNP3_CHUNK_SIZE` and
`DNP3_CRC_SIZE`. -/
def startByte1 : UInt8 := 0x05

def startByte2 : UInt8 := 0x64

def headerRemainderLen : ℕ := 5

def chunkSize : ℕ := 16

def crcSize : ℕ := 2

/-- `dnp3_paf_data_t`; the length is there as long as it is to be read. -/
inductive PafData
  | start1 | start2 | length
  | setFlush (realLength : UInt16)
  deriving DecidableEq

/-- `real_length`: the octets behind a length octet, with a CRC behind the header and behind each block. -/
def realLength (dnp3Length : ℕ) : UInt16 :=
  let userData := dnp3Length - headerRemainderLen
  let numCrcs := 1 + userData / chunkSize + if userData % chunkSize ≠ 0 then 1 else 0
  .ofNat (dnp3Length + crcSize * numCrcs)

/-- A byte of the loop of `DNP3Paf`. -/
def pafByte (pafdata : PafData) (b : UInt8) : PafData ⊕ Option ℤ :=
  match pafdata with
  | .start1 => .inl (if b = startByte1 then .start2 else .start1)
  | .start2 => .inl (if b = startByte2 then .length else .start1)
  | .length => if b.toNat < headerRemainderLen then .inr none else .inl (.setFlush (realLength b.toNat))
  | .setFlush realLength => .inr (some realLength.toNat)

/-- `DNP3Paf`, called for all data of a session. -/
def dnp3Paf : Callback PafData UInt8 := ⟨.start1, pafByte⟩

/-! ### Frames -/

/-- A link frame: its length octet, and what follows: a CRC stands behind the five octets of the header and
behind each block of up to 16 octets. -/
structure LinkFrame where
  len : UInt8
  body : List UInt8
  len_ge : 5 ≤ len.toNat
  size : body.length = len.toNat + 2 + 2 * ((len.toNat - 5 + 15) / 16)

def LinkFrame.bytes (f : LinkFrame) : List UInt8 := [startByte1, startByte2, f.len] ++ f.body

/-- A frame with the junk in front of it; the first start of a frame is its own. -/
structure Piece where
  junk : List UInt8
  frame : LinkFrame
  first : ∀ i, (junk ++ frame.bytes)[i]? = some startByte1 → (junk ++ frame.bytes)[i + 1]? = some startByte2 →
    junk.length ≤ i

def Piece.bytes (p : Piece) : List UInt8 := p.junk ++ p.frame.bytes

/-- The number of first start bytes that some bytes end with. -/
def trailingStarts (junk : List UInt8) : ℕ := (junk.reverse.takeWhile (· = startByte1)).length

def stream (ps : List Piece) : List UInt8 := (ps.map Piece.bytes).flatten

@[simp] theorem stream_nil : stream [] = [] := rfl

@[simp] theorem stream_cons (p : Piece) (ps : List Piece) : stream (p :: ps) = p.bytes ++ stream ps := rfl

/-- Where frames end, from a position on. -/
def ends : ℕ → List Piece → List ℕ
  | _, [] => []
  | q, p :: ps => (q + p.bytes.length) :: ends (q + p.bytes.length) ps

/-! ### The callback on a frame -/

theorem realLength_eq (f : LinkFrame) : (realLength f.len.toNat).toNat = f.body.length := by
  have := f.len_ge
  have := f.len.toNat_lt
  rw [f.size, realLength]
  by_cases hrest : (f.len.toNat - headerRemainderLen) % chunkSize = 0
  · simp only [hrest, ne_eq, not_true_eq_false, if_false, UInt16.toNat_ofNat']
    simp only [headerRemainderLen, chunkSize, crcSize] at hrest ⊢
    omega
  · simp only [hrest, ne_eq, not_false_eq_true, if_true, UInt16.toNat_ofNat']
    simp only [headerRemainderLen, chunkSize, crcSize] at hrest ⊢
    omega

@[simp] theorem trailingStarts_concat (junk : List UInt8) (b : UInt8) :
    trailingStarts (junk ++ [b]) = if b = startByte1 then trailingStarts junk + 1 else 0 := by
  by_cases hb : b = startByte1 <;> simp [trailingStarts, hb]

/-- Junk that ends with a first start byte. -/
theorem exists_of_trailingStarts {junk : List UInt8} (h : trailingStarts junk ≠ 0) :
    ∃ junk', junk = junk' ++ [startByte1] := by
  induction junk using List.reverseRecOn with
  | nil => exact absurd rfl h
  | append_singleton junk b _ =>
    by_cases hb : b = startByte1
    · exact ⟨junk, by rw [hb]⟩
    · simp [hb] at h

/-- The state behind junk without the start of a frame. -/
theorem run_junk {junk : List UInt8} (h : ∀ i, junk[i]? = some startByte1 → junk[i + 1]? ≠ some startByte2) :
    Scanner.run pafByte .start1 junk = .more (if Odd (trailingStarts junk) then .start2 else .start1) := by
  induction junk using List.reverseRecOn with
  | nil => rfl
  | append_singleton junk b ih =>
    have hjunk : ∀ i, junk[i]? = some startByte1 → junk[i + 1]? ≠ some startByte2 := by
      intro i hi hi'
      have hlt : i + 1 < junk.length := (List.getElem?_eq_some_iff.1 hi').1
      exact h i (by rw [List.getElem?_append_left (by omega), hi]) (by rw [List.getElem?_append_left hlt, hi'])
    rw [run_append_more _ (ih hjunk), trailingStarts_concat]
    by_cases hodd : Odd (trailingStarts junk)
    · have hb : b ≠ startByte2 := by
        rintro rfl
        obtain ⟨junk', rfl⟩ := exists_of_trailingStarts hodd.pos.ne'
        exact h junk'.length (by simp) (by simp)
      have hstep : pafByte .start2 b = .inl .start1 := by simp [pafByte, hb]
      rw [if_pos hodd, run_cons_inl _ hstep]
      by_cases hb1 : b = startByte1
      · simp [hb1, hodd, Nat.odd_add_one]
      · simp [hb1]
    · rw [if_neg hodd, run_cons_inl _ rfl]
      by_cases hb1 : b = startByte1
      · simp [hb1, hodd, Nat.odd_add_one]
      · simp [hb1]

theorem Piece.junk_no_start (p : Piece) (i : ℕ) (hi : p.junk[i]? = some startByte1) :
    p.junk[i + 1]? ≠ some startByte2 := by
  intro hi'
  have hlt : i + 1 < p.junk.length := (List.getElem?_eq_some_iff.1 hi').1
  have := p.first i (by rw [List.getElem?_append_left (by omega), hi])
    (by rw [List.getElem?_append_left hlt, hi'])
  omega

/-- The callback stops behind the length octet of a frame. -/
theorem run_piece (p : Piece) (heven : Even (trailingStarts p.junk)) (rest : List UInt8) :
    Scanner.run pafByte .start1 (p.bytes ++ rest) = .stop (some p.frame.body.length) (p.junk.length + 4) := by
  have hjunk := run_junk p.junk_no_start
  rw [if_neg (Nat.not_odd_iff_even.2 heven)] at hjunk
  have hlen : ¬p.frame.len.toNat < headerRemainderLen := by
    have := p.frame.len_ge
    unfold headerRemainderLen
    omega
  obtain ⟨b, body, hbody⟩ := List.exists_cons_of_ne_nil (l := p.frame.body) (by
    intro h
    have := p.frame.size
    rw [h, List.length_nil] at this
    omega)
  rw [Piece.bytes, LinkFrame.bytes, List.append_assoc, run_append_more _ hjunk]
  simp only [List.cons_append, List.nil_append, hbody]
  have hfirst : pafByte .start1 startByte1 = .inl .start2 := by simp [pafByte]
  have hsecond : pafByte .start2 startByte2 = .inl .length := by simp [pafByte]
  have hlength : pafByte .length p.frame.len = .inl (.setFlush (realLength p.frame.len.toNat)) := by
    simp [pafByte, hlen]
  rw [run_cons_inl _ hfirst, run_cons_inl _ hsecond, run_cons_inl _ hlength, run_cons_inr _ rfl]
  simp only [Outcome.shift_stop, realLength_eq, hbody]
  congr 1
  omega

/-- The start of a frame is not seen behind an odd number of first start bytes. -/
theorem frame_missed (p : Piece) (hodd : Odd (trailingStarts p.junk)) :
    Scanner.run pafByte .start1 (p.junk ++ [startByte1, startByte2]) = .more .start1 := by
  have hjunk := run_junk p.junk_no_start
  rw [if_pos hodd] at hjunk
  rw [run_append_more _ hjunk]
  rfl

/-- Displacements are lengths. -/
theorem displacement {s : PafData} {b : UInt8} {d : ℤ} (h : pafByte s b = .inr (some d)) : 0 ≤ d ∧ d < 65536 := by
  cases s with
  | setFlush realLength =>
    cases h
    exact ⟨Int.natCast_nonneg _, by exact_mod_cast realLength.toNat_lt⟩
  | length =>
    simp only [pafByte] at h
    split at h <;> cases h
  | start1 => cases h
  | start2 => cases h

theorem advances : dnp3Paf.Advances := by
  intro data d n h
  have hn := two_le_of_stop (fun b => ⟨_, rfl⟩) h
  obtain ⟨s, b, hstep⟩ := exists_of_stop h
  have := displacement hstep
  omega

/-- The callback stops, and announces flush points, as the frames say. -/
theorem points_stream {ps : List Piece} (heven : ∀ p ∈ ps, Even (trailingStarts p.junk)) (q : ℕ) :
    ∃ marks, dnp3Paf.Points q (stream ps) marks ∧ marks.map Prod.snd = ends q ps := by
  induction ps generalizing q with
  | nil => exact ⟨[], Callback.Points.done fun d n h => (by cases h), rfl⟩
  | cons p ps ih =>
    obtain ⟨marks, hmarks, hends⟩ := ih (fun p' hp' => heven p' (List.mem_cons_of_mem _ hp')) (q + p.bytes.length)
    have hrun := run_piece p (heven p List.mem_cons_self) (stream ps)
    refine ⟨_, .flush (p := p.bytes.length) hrun ?_ (by rw [stream_cons, List.drop_left]; exact hmarks), ?_⟩
    · simp only [Piece.bytes, LinkFrame.bytes, List.length_append, List.length_cons, List.length_nil]
      push_cast
      ring
    · rw [List.map_cons, hends, ends]

/-- The offset of a call is the exact one. -/
theorem exact_of_length {c : Call PafData UInt8} (hc : c.data.length < 2 ^ 31) : dnp3Paf.Exact c := by
  intro d n h
  obtain ⟨hn, hle⟩ := length_of_stop h
  obtain ⟨s, b, hstep⟩ := exists_of_stop h
  have := displacement hstep
  omega

/-- **DNP3 frames**: for every cut into segments the flush points are the ends of the frames, if each junk ends
with an even number of first start bytes. -/
theorem dnp3_located (ps : List Piece) (heven : ∀ p ∈ ps, Even (trailingStarts p.junk))
    (segs : List (List UInt8)) (hsegs : segs.flatten = stream ps) (hlen : ∀ seg ∈ segs, seg.length ≤ 2 ^ 31 - 1) :
    dnp3Paf.flushPoints segs = ends 0 ps := by
  obtain ⟨marks, hmarks, hends⟩ := points_stream heven 0
  rw [← hsegs] at hmarks
  have hevents := Callback.events_eq advances hmarks fun c hc _ => exact_of_length (by
    have := Callback.length_data_le hlen hc
    omega)
  rw [Callback.flushPoints, hevents.1, hends]

/-- A frame without user data. -/
def shortFrame : LinkFrame := ⟨0x05, [0xc0, 0x01, 0x00, 0x02, 0x00, 0x11, 0x22], by decide, by decide⟩

/-- Some start bytes in front of it. -/
def startsPiece (n : ℕ) : Piece where
  junk := List.replicate n startByte1
  frame := shortFrame
  first := by
    intro i _ hi
    by_contra hlt
    have hget : (List.replicate n startByte1 ++ shortFrame.bytes)[i + 1]? = some startByte1 := by
      rcases Nat.lt_or_ge (i + 1) n with h | h
      · rw [List.getElem?_append_left (by simpa using h), List.getElem?_replicate, if_pos h]
      · rw [List.length_replicate] at hlt
        obtain rfl : n = i + 1 := by omega
        rw [List.getElem?_append_right (by simp), List.length_replicate, Nat.sub_self]
        rfl
    rw [hget] at hi
    exact absurd hi (by decide)

theorem dnp3_located_startsPiece :
    dnp3Paf.flushPoints [[5, 5, 5], [0x64, 5, 0xc0], [1, 0, 2, 0, 0x11, 0x22]] = ends 0 [startsPiece 2] :=
  dnp3_located [startsPiece 2] (by decide) _ (by decide) (by decide)

/-- Behind one start byte a frame is not located. -/
theorem start_byte_hides_frame :
    ¬∀ ps segs, segs.flatten = stream ps → (∀ seg ∈ segs, seg ≠ []) → dnp3Paf.flushPoints segs = ends 0 ps := by
  intro h
  exact absurd (h [startsPiece 1] [stream [startsPiece 1]] rfl (by decide)) (by decide)

end Snort.Dnp3
