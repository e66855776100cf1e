import Snort.HiPaf.Segments
import Snort.HiPaf.Length

/-!
# Chunked messages

* `Chunk`, `ChunkedMessage`: a header block, chunks, a last chunk, a trailer and an empty line.
* `InChunks`: the states of `hi_paf` in front of a chunk; `run_chunk` leads from one to the next.
* **`firstFlush_chunked`**: where a chunked message ends.
-/

namespace Snort.HiPaf

open Scanner Framer

/-! ### Messages -/

/-- The value of a hexadecimal digit. -/
def hexDigit (c : Byte) : ℕ :=
  if isdigit c then c.toNat - (chr '0').toNat
  else if isupper c then c.toNat - (chr 'A').toNat + 10
  else c.toNat - (chr 'a').toNat + 10

/-- Hexadecimal digits behind a number that is there before. -/
def hexadecimal (n : ℕ) (v : List Byte) : ℕ := v.foldl (fun n c => 16 * n + hexDigit c) n

/-- The end of a line. -/
structure LineEnd where
  crs : List Byte
  crs_cr : ∀ c ∈ crs, c = cr

def LineEnd.bytes (e : LineEnd) : List Byte := e.crs ++ [eol]

/-- A chunk: its size in hexadecimal digits, the data and the line ends behind both. -/
structure Chunk where
  size : List Byte
  sizeEnd : LineEnd
  data : List Byte
  dataEnd : LineEnd
  size_hex : ∀ c ∈ size, isxdigit c = true
  size_eq : hexadecimal 0 size = data.length
  data_pos : 1 ≤ data.length
  data_lt : data.length < 2 ^ 31

def Chunk.bytes (k : Chunk) : List Byte :=
  k.size ++ k.sizeEnd.bytes ++ (k.data ++ k.dataEnd.bytes)

/-- A message that consists of chunks. -/
structure ChunkedMessage where
  head : HeaderBlock
  chunks : List Chunk
  last : List Byte
  lastEnd : LineEnd
  trailer : List (List Byte)
  blank : LineEnd
  last_hex : ∀ c ∈ last, isxdigit c = true
  last_zero : hexadecimal 0 last = 0
  trailer_text : ∀ l ∈ trailer, eol ∉ l ∧ strip l ≠ []

def ChunkedMessage.bytes (m : ChunkedMessage) : List Byte :=
  m.head.bytes ++ (m.chunks.flatMap Chunk.bytes ++
    (m.last ++ m.lastEnd.bytes ++ (joinLines m.trailer ++ m.blank.bytes)))

/-! ### Sizes -/

/-- The states in the size of a chunk. -/
structure InSize (s : HiState) : Prop where
  msg : s.msg = 0
  fsm : s.fsm = z6
  err : s.flags.err = false
  eol : s.flags.eol = true
  nof : s.flags.nof = true
  chk : s.flags.chk = false
  body : ¬ (s.flags.nob = true ∧ s.flags.rsp = true)

theorem mask_eq_zero {x : BitVec 32} (h : x.toNat < 2 ^ 27) : x &&& 0xF8000000 = 0 := by
  have hmask : ∀ i < 27, (0xF8000000 : BitVec 32).getLsbD i = false := by decide
  refine BitVec.eq_of_getLsbD_eq fun i hi => ?_
  rw [BitVec.getLsbD_and]
  show _ = BitVec.getLsbD (0#32) i
  rw [BitVec.getLsbD_zero]
  by_cases hlt : i < 27
  · rw [hmask i hlt, Bool.and_false]
  · have hx : x.getLsbD i = false :=
      Nat.testBit_lt_two_pow (lt_of_lt_of_le h (Nat.pow_le_pow_right (by omega) (by omega)))
    rw [hx, Bool.false_and]

theorem hexDigit_fold : ∀ c, isxdigit c = true → isxdigit (fold c) = true ∧
    (xton (fold c)).toNat = hexDigit c ∧ c ≠ eol ∧ c ≠ cr := by
  decide +kernel

/-- One digit of the size of a chunk. -/
theorem scanByte_hex {s : HiState} (hs : InSize s) {c : Byte} (hc : isxdigit c = true)
    (hlen : 16 * s.len.toNat + hexDigit c < 2 ^ 31) :
    ∃ t, scanByte s c = .inl t ∧ InSize t ∧ t.len.toNat = 16 * s.len.toNat + hexDigit c ∧
      t.flags = s.flags := by
  obtain ⟨hx, hval, heol, hcr⟩ := hexDigit_fold c hc
  have hrow : (row s.fsm).event ≠ fold c := by
    rw [hs.fsm]
    exact fun h => fold_ne_eol c heol h.symm
  have hscan : hiScanFsm s c = (.search, { s with len := (s.len <<< 4) + xton (fold c) }) := by
    rw [scan_other (by rw [hs.fsm]; decide) (by rw [hs.fsm]; decide) hrow,
      scan_match (Or.inl (by show (row (row s.fsm).other).event = any; rw [hs.fsm]; decide))]
    show hiExec { s with fsm := (row (row s.fsm).other).matched } (row (row s.fsm).other).action
      (fold c) = _
    rw [hs.fsm]
    show (if s.flags.err = true then _ else if isxdigit (fold c) = true ∧ s.len &&& 0xF8000000 = 0
      then (PafStatus.search, ({ s with fsm := z6, len := (s.len <<< 4) + xton (fold c) } : HiState))
      else _) = _
    rw [if_neg (by rw [hs.err]; nofun), if_pos ⟨hx, mask_eq_zero (by omega)⟩]
  refine ⟨{ s with len := (s.len <<< 4) + xton (fold c) }, scanByte_of_switch hcr ?_, ?_, ?_, rfl⟩
  · rw [← hscan, scanSwitch, hs.msg]
    exact if_neg heol
  · exact ⟨hs.msg, hs.fsm, hs.err, hs.eol, hs.nof, hs.chk, hs.body⟩
  · show ((s.len <<< 4) + xton (fold c)).toNat = _
    rw [BitVec.toNat_add, BitVec.toNat_shiftLeft, Nat.shiftLeft_eq, hval]
    omega

theorem hexadecimal_ge (n : ℕ) (v : List Byte) : n ≤ hexadecimal n v := by
  induction v generalizing n with
  | nil => exact le_rfl
  | cons c v ih =>
    have := ih (16 * n + hexDigit c)
    show n ≤ hexadecimal (16 * n + hexDigit c) v
    omega

/-- The digits of the size of a chunk. -/
theorem run_hex {s : HiState} (hs : InSize s) (v : List Byte) (hv : ∀ c ∈ v, isxdigit c = true)
    (hlen : hexadecimal s.len.toNat v < 2 ^ 31) :
    ∃ t, run scanByte s v = .more t ∧ InSize t ∧ t.len.toNat = hexadecimal s.len.toNat v ∧
      t.flags = s.flags := by
  induction v generalizing s with
  | nil => exact ⟨s, rfl, hs, rfl, rfl⟩
  | cons c v ih =>
    have hge := hexadecimal_ge (16 * s.len.toNat + hexDigit c) v
    have hlen' : hexadecimal (16 * s.len.toNat + hexDigit c) v < 2 ^ 31 := hlen
    obtain ⟨t, ht, hst, htlen, htflags⟩ := scanByte_hex hs (hv c List.mem_cons_self) (by omega)
    obtain ⟨u, hu, hsu, hulen, huflags⟩ := ih hst (fun c' hc' => hv c' (List.mem_cons_of_mem _ hc'))
      (htlen ▸ hlen')
    refine ⟨u, ?_, hsu, hulen.trans (congrArg (hexadecimal · v) htlen), huflags.trans htflags⟩
    rw [run_cons_inl _ ht, hu]
    rfl

/-- The `\r` in front of a line feed. -/
theorem run_lineEnd (s : HiState) (e : LineEnd) :
    run scanByte s e.bytes =
      ((scanByte s eol).elim (Outcome.more ·) fun r => .stop r 1).shift e.crs.length :=
  run_blank e.crs e.crs_cr

/-! ### Chunks -/

/-- The states behind the size of a chunk. -/
def HiState.behindSize (s : HiState) : HiState := s.hasLen.at z7

/-- A line feed while a body is scanned. -/
theorem scanSwitch_lineFeed {s : HiState} (hmsg : s.msg = 0) (heol : s.flags.eol = true)
    (hnof : s.flags.nof = true) : scanSwitch s eol = hiScanFsm s eol := by
  rw [scanSwitch, hmsg]
  show scanLineFeed s = _
  rw [scanLineFeed, if_neg (by simp [heol]), if_pos hnof]

theorem scanByte_sizeEnd {s : HiState} (hs : InSize s) (hlen : s.len ≠ 0) :
    scanByte s eol = .inr (.skip, s.behindSize, s.len) := by
  refine scanByte_of_switch_stop (by decide) ?_ (by decide)
  rw [scanSwitch_lineFeed hs.msg hs.eol hs.nof, scan_match (Or.inr (by rw [hs.fsm]; rfl)), hs.fsm]
  show (if s.len ≠ 0 then _ else _ : PafStatus × HiState) = _
  rw [if_pos hlen]
  rfl

theorem scanByte_lastEnd {s : HiState} (hs : InSize s) (hlen : s.len = 0) :
    scanByte s eol = .inl { s.behindSize with
      msg := 3, flags := { s.behindSize.flags with nof := false } } := by
  refine scanByte_of_switch (by decide) ?_
  rw [scanSwitch_lineFeed hs.msg hs.eol hs.nof, scan_match (Or.inr (by rw [hs.fsm]; rfl)), hs.fsm]
  show (if s.len ≠ 0 then _ else _ : PafStatus × HiState) = _
  rw [if_neg (not_not.2 hlen)]
  rfl

theorem scanByte_dataEnd {s : HiState} (hs : InSize s) :
    scanByte s.behindSize eol = .inl (HiState.at { s.hasLen with len := 0 } z6) := by
  refine scanByte_of_switch (by decide) ?_
  rw [scanSwitch_lineFeed (s := s.behindSize) hs.msg hs.eol hs.nof,
    scan_match (Or.inr (show (row z7).event = fold eol by decide))]
  rfl

/-- The states in front of a chunk. -/
structure InChunks (s : HiState) : Prop extends InSize s where
  len : s.len = 0

/-- A chunk. -/
theorem run_chunk {s : HiState} (hs : InChunks s) (k : Chunk) :
    ∃ t, run byteStep (.search s) k.bytes = .more (.search t) ∧ InChunks t ∧
      t.flags.nob = s.flags.nob := by
  obtain ⟨u, hu, hsu, hulen, huflags⟩ := run_hex hs.toInSize k.size k.size_hex (by
    rw [hs.len]
    exact k.size_eq.trans_lt k.data_lt)
  have hlen : u.len.toNat = k.data.length := by
    rw [hulen, hs.len]
    exact k.size_eq
  have hne : u.len ≠ 0 := fun h => by
    have hpos := k.data_pos
    rw [← hlen, h] at hpos
    exact absurd hpos (by decide)
  have hsize : run scanByte s (k.size ++ k.sizeEnd.bytes) =
      .stop (.skip, u.behindSize, u.len) (k.size ++ k.sizeEnd.bytes).length := by
    rw [run_append_more _ hu, run_lineEnd, scanByte_sizeEnd hsu hne, Sum.elim_inr,
      Outcome.shift_stop, Outcome.shift_stop]
    congr 1
    simp only [List.length_append, LineEnd.bytes, List.length_singleton]
    omega
  have hskip : run byteStep (.search s) (k.size ++ k.sizeEnd.bytes) =
      .more (.skip u.behindSize k.data.length) := by
    have hverdict : verdictOf (.skip, u.behindSize, u.len) (k.size ++ k.sizeEnd.bytes).length =
        .skip u.behindSize (k.data.length + (k.size ++ k.sizeEnd.bytes).length) := by
      have hlt := k.data_lt
      rw [← hlen] at hlt ⊢
      exact if_neg (not_or.2 ⟨by show ¬ u.flags.err = true; rw [hsu.err]; nofun, Nat.not_le.2 hlt⟩)
    rw [run_byteStep_stop hsize, hverdict]
    exact run_skip _ _ _
  have hend : run scanByte u.behindSize k.dataEnd.bytes =
      .more (HiState.at { u.hasLen with len := 0 } z6) := by
    rw [run_lineEnd, scanByte_dataEnd hsu]
    rfl
  have hdata := run_skip (v := single hiVerdict) u.behindSize 0 k.data
  rw [Nat.zero_add] at hdata
  refine ⟨HiState.at { u.hasLen with len := 0 } z6, ?_,
    ⟨⟨hsu.msg, rfl, hsu.err, hsu.eol, hsu.nof, hsu.chk, hsu.body⟩, rfl⟩,
    show u.flags.nob = _ by rw [huflags]⟩
  · rw [Chunk.bytes, run_append_more _ hskip, run_append_more _ hdata,
      run_skip_zero _ (by simp [LineEnd.bytes]), run_byteStep_more hend]
    rfl

theorem run_chunks {s : HiState} (hs : InChunks s) (ks : List Chunk) :
    ∃ t, run byteStep (.search s) (ks.flatMap Chunk.bytes) = .more (.search t) ∧ InChunks t ∧
      t.flags.nob = s.flags.nob := by
  induction ks generalizing s with
  | nil => exact ⟨s, rfl, hs, rfl⟩
  | cons k ks ih =>
    obtain ⟨t, ht, hst, htnob⟩ := run_chunk hs k
    obtain ⟨u, hu, hsu, hunob⟩ := ih hst
    refine ⟨u, ?_, hsu, hunob.trans htnob⟩
    rw [List.flatMap_cons, run_append_more _ ht, hu]
    rfl

/-! ### The trailer -/

/-- The states in the trailer, in front of a line. -/
structure InTrailer (s : HiState) : Prop where
  msg : s.msg = 3
  len : s.len = 0
  err : s.flags.err = false
  chk : s.flags.chk = false
  length : s.flags.len = true
  body : ¬ (s.flags.nob = true ∧ s.flags.rsp = true)

/-- The rest of a line of the trailer. -/
theorem run_trailerText (s : HiState) (l : List Byte) (hl : eol ∉ l) :
    run scanByte { s with msg := 4 } (l ++ [eol]) = .more { s with msg := 3 } := by
  have hstay : ∀ c ∈ l, scanByte { s with msg := 4 } c = .inl { s with msg := 4 } := by
    intro c hc
    by_cases hcr : c = cr
    · rw [hcr]
      rfl
    · have hne : ¬ c = eol := fun h => hl (h ▸ hc)
      exact scanByte_of_switch hcr (if_neg hne)
  rw [run_stay _ hstay]
  rfl

/-- A line of the trailer. -/
theorem run_trailerLine {s : HiState} (hmsg : s.msg = 3) (l : List Byte) (hl : eol ∉ l)
    (htext : strip l ≠ []) : run scanByte s (l ++ [eol]) = .more s := by
  induction l with
  | nil => exact absurd rfl htext
  | cons c l ih =>
    have hne := List.ne_of_not_mem_cons hl
    have hl := List.not_mem_of_not_mem_cons hl
    by_cases hcr : c = cr
    · rw [hcr, strip_cons_cr] at htext
      rw [hcr, List.cons_append, run_cons_inl _ (scanByte_cr s), ih hl htext]
      rfl
    · have hbyte : scanByte s c = .inl { s with msg := 4 } := by
        refine scanByte_of_switch hcr ?_
        rw [scanSwitch, hmsg]
        exact if_neg hne.symm
      rw [List.cons_append, run_cons_inl _ hbyte, run_trailerText s l hl, ← hmsg]
      rfl

theorem run_trailer {s : HiState} (hmsg : s.msg = 3) (ls : List (List Byte))
    (hls : ∀ l ∈ ls, eol ∉ l ∧ strip l ≠ []) : run scanByte s (joinLines ls) = .more s := by
  induction ls with
  | nil => rfl
  | cons l ls ih =>
    obtain ⟨hl, htext⟩ := hls l List.mem_cons_self
    rw [joinLines, List.flatMap_cons, run_append_more _ (run_trailerLine hmsg l hl htext)]
    show (run scanByte s (joinLines ls)).shift _ = _
    rw [ih fun l' hl' => hls l' (List.mem_cons_of_mem _ hl')]
    rfl

/-- The line feed behind the trailer. -/
theorem scanByte_trailerEnd {s : HiState} (hs : InTrailer s) :
    scanByte s eol = .inr (.flush, s, 0) := by
  have heoh : hiEoh s = (.flush, s) := by
    unfold hiEoh
    simp only [hs.length, hs.err, hs.chk, hs.body, or_true, not_true_eq_false, and_false, if_false,
      Bool.false_eq_true, or_self, if_true]
  have hswitch : scanSwitch s eol = (.flush, s) := by
    rw [scanSwitch, hs.msg]
    exact heoh
  rw [scanByte_of_switch_stop (by decide) hswitch (by decide), hs.len]

/-- From the last chunk to the end of the message. -/
theorem run_last {s : HiState} (hs : InChunks s) (m : ChunkedMessage) :
    ∃ t, run byteStep (.search s)
        (m.last ++ m.lastEnd.bytes ++ (joinLines m.trailer ++ m.blank.bytes)) =
      .stop (.search t) (m.last ++ m.lastEnd.bytes ++ (joinLines m.trailer ++ m.blank.bytes)).length ∧
        InTrailer t ∧ t.flags.nob = s.flags.nob := by
  obtain ⟨u, hu, hsu, hulen, huflags⟩ := run_hex hs.toInSize m.last m.last_hex (by
    rw [hs.len]
    exact m.last_zero.trans_lt (by norm_num))
  have hlen : u.len = 0 := BitVec.eq_of_toNat_eq (by rw [hulen, hs.len]; exact m.last_zero)
  have hlast : run scanByte s (m.last ++ m.lastEnd.bytes) = .more { u.behindSize with
      msg := 3, flags := { u.behindSize.flags with nof := false } } := by
    rw [run_append_more _ hu, run_lineEnd, scanByte_lastEnd hsu hlen]
    rfl
  generalize hv : ({ u.behindSize with
      msg := 3, flags := { u.behindSize.flags with nof := false } } : HiState) = v at hlast
  have hsv : InTrailer v := by
    rw [← hv]
    exact ⟨rfl, hlen, hsu.err, hsu.chk, rfl, hsu.body⟩
  have hnob : v.flags.nob = s.flags.nob := by
    rw [← hv]
    show u.flags.nob = _
    rw [huflags]
  have hend : run scanByte v (joinLines m.trailer ++ m.blank.bytes) =
      .stop (.flush, v, 0) (joinLines m.trailer ++ m.blank.bytes).length := by
    rw [run_append_more _ (run_trailer hsv.msg m.trailer m.trailer_text), run_lineEnd,
      scanByte_trailerEnd hsv, Sum.elim_inr, Outcome.shift_stop, Outcome.shift_stop]
    congr 1
    simp only [List.length_append, LineEnd.bytes, List.length_singleton]
    omega
  have hverdict : verdictOf (.flush, v, 0) (joinLines m.trailer ++ m.blank.bytes).length =
      .flush v (joinLines m.trailer ++ m.blank.bytes).length :=
    (if_neg (not_or.2 ⟨by rw [hsv.err]; nofun, by decide⟩)).trans
      (congrArg (Verdict.flush v) (Nat.zero_add _))
  refine ⟨v, ?_, hsv, hnob⟩
  rw [run_append_more _ (run_byteStep_more hlast), run_byteStep_stop hend, hverdict]
  show (run byteStep (.flush v _) _).shift _ = _
  rw [show run byteStep (.flush v _) _ = _ from run_flush_stop v (length_of_stop hend).1 le_rfl,
    Outcome.shift_stop]
  congr 1
  simp only [List.length_append]
  omega

/-! ### The whole message -/

/-- The first state behind a header block that declares a chunked body. -/
def HiState.atChunks (t : HiState) : HiState :=
  { t with msg := 0, fsm := z6, len := 0, flags := { t.flags with nof := true, chk := false } }

/-- The end of a header block that declares a chunked body. -/
theorem endOfBlock_chunked {t : HiState} (hchk : t.flags.chk = true) (herr : t.flags.err = false)
    (hbody : ¬ (t.flags.nob = true ∧ t.flags.rsp = true)) :
    endOfBlock t = .inl t.atChunks := by
  have heoh : hiEoh t = (.search, { t with
      fsm := z6, len := 0, flags := { t.flags with nof := true, chk := false } }) := by
    have hpst : ¬ (t.flags.pst = true ∧ ¬ (t.flags.chk = true ∨ t.flags.len = true)) := fun h =>
      h.2 (Or.inl hchk)
    have hgo : ¬ (t.flags.err = true ∨ t.flags.nob = true ∧ t.flags.rsp = true) := by
      rw [herr]
      exact not_or.2 ⟨nofun, hbody⟩
    unfold hiEoh
    rw [if_neg hpst]
    dsimp only
    rw [if_neg hgo, if_pos hchk]
    rfl
  rw [endOfBlock, heoh]
  rfl

end Snort.HiPaf
