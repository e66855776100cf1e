import Snort.HttpInspect.ChunkModel

/-!
# Chunked bodies, packet by packet

* `Chunk`: a size line, the data, and the line end behind it.
* `Chunk.Clear`: the size lines that the loop reads as far as the data.
* `loop_line`, `loop_chunk`, `loop_last`: what the loop makes of a size line, of a whole chunk, and of one
  that is cut off.
* `Cut`: a body in packets that are cut inside chunk data or at its edges.
* **`extractAll_cut`**: the bytes that are copied are the data of the chunks.
-/

namespace Snort.HttpInspect

open HiPaf (Byte chr eol)

/-! ### Chunks -/

/-- A hexadecimal number behind one that is there before. -/
def hexValue (n : ℕ) (v : List Byte) : ℕ := v.foldl (fun n c => 16 * n + (hexLookup c).getD 0) n

/-- The end of a line. -/
def lineEnd (cr : Bool) : List Byte := if cr then [chr '\r', eol] else [eol]

/-- A chunk on the wire. -/
structure Chunk where
  size : List Byte
  blanks : List Byte
  ext : List Byte
  lineCr : Bool
  data : List Byte
  dataCr : Bool
  size_hex : ∀ c ∈ size, (hexLookup c).isSome = true
  size_pos : 1 ≤ size.length
  size_le : size.length ≤ 8
  size_eq : hexValue 0 size = data.length
  blanks_blank : ∀ c ∈ blanks, blank c = true
  ext_start : ext = [] ∨ ext.head? = some (chr ';')
  ext_eol : eol ∉ ext

namespace Chunk

variable (k : Chunk)

/-- What stands behind the size. -/
def tail : List Byte := k.blanks ++ (k.ext ++ lineEnd k.lineCr)

def line : List Byte := k.size ++ k.tail

def bytes : List Byte := k.line ++ (k.data ++ lineEnd k.dataCr)

/-- The data follows where the loop takes it from: there are no blanks in the size line, or nothing but
a line feed behind them. -/
def Clear : Prop := k.data = [] ∨ k.blanks = [] ∨ k.ext = [] ∧ k.lineCr = false

instance : Decidable k.Clear := inferInstanceAs (Decidable (_ ∨ _ ∨ _ ∧ _))

end Chunk

/-- The bytes of some chunks. -/
def wire (ks : List Chunk) : List Byte := ks.flatMap Chunk.bytes

/-- The data of some chunks. -/
def payload (ks : List Chunk) : List Byte := ks.flatMap Chunk.data

/-! ### The loop -/

section Loop

variable {maxSize : ℕ} {s : ChunkState}

theorem chunkLoop_ahead (n : ℕ) (s : ChunkState) (l : List Byte) :
    chunkLoop maxSize n s l = chunkLoop maxSize 0 s (l.drop n) := by
  induction l generalizing n with
  | nil =>
    rw [List.drop_nil]
    cases n <;> rfl
  | cons c l ih =>
    cases n with
    | zero => rfl
    | succ n => exact ih n

/-- In front of a chunk length. -/
structure Ready (s : ChunkState) : Prop where
  check : s.iCheckChunk = true
  len : s.iChunkLen = 0
  chars : s.iChunkChars = 0

theorem Ready.restart_eq (hs : Ready s) : s.restart = s := by
  obtain ⟨len, chars, check, present, buf, updated⟩ := s
  obtain ⟨hcheck, hlen, hchars⟩ := hs
  dsimp only at hcheck hlen hchars
  subst hcheck hlen hchars
  rfl

theorem ready_restart (s : ChunkState) : Ready s.restart := ⟨rfl, rfl, rfl⟩

/-- A byte between lines. -/
theorem loop_eol (hlen : s.iChunkLen = 0) (rest : List Byte) :
    chunkLoop maxSize 0 s (eol :: rest) = chunkLoop maxSize 0 s.restart rest := by
  simp [chunkLoop, hlen]

theorem loop_blank (hcheck : s.iCheckChunk = true) (hlen : s.iChunkLen = 0) {c : Byte}
    (hc : blank c = true) (rest : List Byte) :
    chunkLoop maxSize 0 s (c :: rest) = chunkLoop maxSize 0 s.restart rest := by
  simp [chunkLoop, hlen, hcheck, hc]

theorem loop_cr (hcheck : s.iCheckChunk = true) (rest : List Byte) :
    chunkLoop maxSize 0 s (chr '\r' :: eol :: rest) = chunkLoop maxSize 0 s (eol :: rest) := by
  have hcr : chr '\r' ≠ eol ∧ blank (chr '\r') = false ∧ hexLookup (chr '\r') = none := by decide
  obtain ⟨heol, hblank, hhex⟩ := hcr
  conv_lhs => rw [chunkLoop]
  simp [heol, hblank, hhex, hcheck]

/-- A line end. -/
theorem loop_lineEnd (hcheck : s.iCheckChunk = true) (hlen : s.iChunkLen = 0) (cr : Bool)
    (rest : List Byte) :
    chunkLoop maxSize 0 s (lineEnd cr ++ rest) = chunkLoop maxSize 0 s.restart rest := by
  cases cr with
  | false => exact loop_eol hlen rest
  | true => exact (loop_cr hcheck rest).trans (loop_eol hlen rest)

/-- A chunk extension. -/
theorem loop_ext (hcheck : s.iCheckChunk = true) {ext : List Byte}
    (hext : ext = [] ∨ ext.head? = some (chr ';')) (heol : eol ∉ ext) (cr : Bool)
    (rest : List Byte) :
    chunkLoop maxSize 0 s (ext ++ (lineEnd cr ++ rest)) = chunkLoop maxSize 0 s (eol :: rest) := by
  cases ext with
  | nil =>
    cases cr with
    | false => rfl
    | true => exact loop_cr hcheck rest
  | cons c ext =>
    obtain rfl : c = chr ';' := by simpa using hext
    have hsemi : chr ';' ≠ eol ∧ blank (chr ';') = false ∧ hexLookup (chr ';') = none ∧
        chr ';' ≠ chr '\r' := by decide
    obtain ⟨hne, hblank, hhex, hcr⟩ := hsemi
    have hlineEnd : ∃ p, lineEnd cr ++ rest = p ++ eol :: rest ∧ eol ∉ p := by
      cases cr with
      | false => exact ⟨[], rfl, List.not_mem_nil⟩
      | true => exact ⟨[chr '\r'], rfl, by decide⟩
    obtain ⟨p, hp, hpeol⟩ := hlineEnd
    have hskip : ((ext ++ (lineEnd cr ++ rest)).takeWhile (· ≠ eol)).length = (ext ++ p).length := by
      rw [hp, ← List.append_assoc, List.takeWhile_append_of_pos, List.takeWhile_cons_of_neg (by simp),
        List.append_nil]
      intro c hc
      have hmem : c ∈ ext ∨ c ∈ p := List.mem_append.1 hc
      refine decide_eq_true fun h => ?_
      rcases hmem with hmem | hmem
      · exact heol (List.mem_cons_of_mem _ (h ▸ hmem))
      · exact hpeol (h ▸ hmem)
    have hstep : chunkLoop maxSize 0 s (chr ';' :: (ext ++ (lineEnd cr ++ rest))) =
        chunkLoop maxSize ((ext ++ (lineEnd cr ++ rest)).takeWhile (· ≠ eol)).length s
          (ext ++ (lineEnd cr ++ rest)) := by
      conv_lhs => rw [chunkLoop.eq_def]
      simp [hne, hblank, hhex, hcheck, hcr]
    rw [List.cons_append, hstep, hskip, chunkLoop_ahead, hp, ← List.append_assoc, List.drop_left]

/-! ### Sizes -/

theorem hexLookup_ne : ∀ c, (hexLookup c).isSome = true → c ≠ eol ∧ blank c = false := by
  decide +kernel

theorem digit_len {h : ℕ} (hlen : s.iChunkLen < 2 ^ 28) (hh : h < 16) :
    (s.digit h).iChunkLen = 16 * s.iChunkLen + h := by
  have hshift : s.iChunkLen <<< 4 = 16 * s.iChunkLen := by
    rw [Nat.shiftLeft_eq]
    omega
  show (s.iChunkLen <<< 4) % 2 ^ 32 ||| h = _
  rw [Nat.mod_eq_of_lt (by rw [hshift]; omega), ← Nat.shiftLeft_add_eq_or_of_lt (by omega), hshift]

/-- The digits of a chunk length. -/
theorem loop_size (hcheck : s.iCheckChunk = true) (v : List Byte)
    (hv : ∀ c ∈ v, (hexLookup c).isSome = true) (hchars : s.iChunkChars + v.length ≤ 8)
    (hlen : s.iChunkLen < 16 ^ s.iChunkChars) (rest : List Byte) :
    chunkLoop maxSize 0 s (v ++ rest) =
      chunkLoop maxSize 0 { s with
        iChunkLen := hexValue s.iChunkLen v, iChunkChars := s.iChunkChars + v.length } rest := by
  induction v generalizing s with
  | nil => rfl
  | cons c v ih =>
    obtain ⟨h, hh⟩ := Option.isSome_iff_exists.1 (hv c List.mem_cons_self)
    obtain ⟨hne, hblank⟩ := hexLookup_ne c (hv c List.mem_cons_self)
    have hlt := hexLookup_lt c h hh
    rw [List.length_cons] at hchars
    have hpow : 16 ^ s.iChunkChars ≤ 16 ^ 7 := Nat.pow_le_pow_right (by norm_num) (by omega)
    have hdigit := digit_len (s := s) (h := h) (by omega) hlt
    have hstep : chunkLoop maxSize 0 s (c :: (v ++ rest)) =
        chunkLoop maxSize 0 (s.digit h) (v ++ rest) := by
      have hnot : ¬ 8 ≤ s.iChunkChars := by omega
      conv_lhs => rw [chunkLoop.eq_def]
      simp [hne, hblank, hcheck, hh, hnot]
    have hval : hexValue s.iChunkLen (c :: v) = hexValue (16 * s.iChunkLen + h) v := by
      rw [hexValue, List.foldl_cons, hh]
      rfl
    have htail := ih (s := s.digit h) hcheck (fun c' hc' => hv c' (List.mem_cons_of_mem _ hc'))
      (by show s.iChunkChars + 1 + v.length ≤ 8; omega)
      (by
        show _ < 16 ^ (s.iChunkChars + 1)
        rw [hdigit, pow_succ]
        omega)
    rw [List.cons_append, hstep, htail, hdigit, hval, List.length_cons]
    show chunkLoop maxSize 0 { s with
      iChunkLen := _, iChunkChars := s.iChunkChars + 1 + v.length } rest = _
    rw [Nat.add_assoc, Nat.add_comm 1]

/-! ### The data of a chunk -/

/-- What the loop does from the data of a chunk on. -/
def loopData (maxSize : ℕ) (s : ChunkState) (data : List Byte) : Option ChunkState :=
  let s := s.clip data.length
  if s.iChunkLen = 0 then some s
  else if data.length ≤ s.iChunkLen then some (s.copy maxSize data)
  else chunkLoop maxSize 0 (s.copy maxSize data).restart (data.drop (s.iChunkLen + 1))

/-- Blanks with a line feed behind them. -/
theorem loop_behindBlanks (hcheck : s.iCheckChunk = true) (hlen : s.iChunkLen ≠ 0)
    {blanks : List Byte} (hblanks : ∀ c ∈ blanks, blank c = true) (data : List Byte) :
    chunkLoop maxSize 0 s (blanks ++ eol :: data) = loopData maxSize s data := by
  have hne : blank eol = false := by decide
  have htake : (blanks ++ eol :: data).takeWhile blank = blanks := by
    rw [List.takeWhile_append_of_pos hblanks, List.takeWhile_cons_of_neg (by rw [hne]; nofun),
      List.append_nil]
  have hbehind : behindBlanks (blanks ++ eol :: data) = some (blanks.length + 1) := by
    unfold behindBlanks
    rw [htake]
    simp
  have hdrop : (blanks ++ eol :: data).drop (blanks.length + 1) = data := by
    rw [← List.drop_drop, List.drop_left]
    rfl
  have hfirst : ∃ c l, blanks ++ eol :: data = c :: l ∧ (c = eol ∨ blank c = true) := by
    cases blanks with
    | nil => exact ⟨eol, data, rfl, Or.inl rfl⟩
    | cons c blanks => exact ⟨c, _, rfl, Or.inr (hblanks c List.mem_cons_self)⟩
  obtain ⟨c, l, hcl, hc⟩ := hfirst
  rw [hcl] at hbehind hdrop ⊢
  have hl : ∀ n, l.drop (blanks.length + n) = data.drop n := fun n => by
    rw [← hdrop, List.drop_succ_cons, List.drop_drop]
  conv_lhs => rw [chunkLoop.eq_def]
  dsimp only
  rw [if_pos hc, if_pos ⟨hcheck, hlen⟩, hbehind]
  dsimp only
  rw [hdrop]
  unfold loopData
  dsimp only
  split_ifs
  · rfl
  · rfl
  · rw [chunkLoop_ahead, Nat.add_assoc, hl, Nat.add_comm 1]

/-! ### Chunks in the loop -/

/-- The state with a chunk length. -/
def ChunkState.withSize (s : ChunkState) (k : Chunk) : ChunkState :=
  { s with iChunkLen := k.data.length, iChunkChars := k.size.length }

/-- The state with more data. -/
def ChunkState.add (s : ChunkState) (data : List Byte) : ChunkState :=
  { s with chunkPresent := s.chunkPresent || data ≠ [], iChunkBuf := s.iChunkBuf ++ data }

theorem Ready.add (hs : Ready s) (data : List Byte) : Ready (s.add data) :=
  ⟨hs.check, hs.len, hs.chars⟩

theorem add_nil (s : ChunkState) : s.add [] = s := by
  simp [ChunkState.add]

theorem add_add (s : ChunkState) (x y : List Byte) : (s.add x).add y = s.add (x ++ y) := by
  simp [ChunkState.add, Bool.or_assoc, List.append_assoc]

theorem Ready.size (hs : Ready s) (k : Chunk) (rest : List Byte) :
    chunkLoop maxSize 0 s (k.line ++ rest) = chunkLoop maxSize 0 (s.withSize k) (k.tail ++ rest) := by
  have hsize := @loop_size maxSize s hs.check k.size k.size_hex
    (by rw [hs.chars, Nat.zero_add]; exact k.size_le) (by rw [hs.len, hs.chars]; norm_num)
    (k.tail ++ rest)
  rw [Chunk.line, List.append_assoc, hsize, hs.len, hs.chars, k.size_eq, Nat.zero_add]
  rfl

/-- The size line of a chunk that has data. -/
theorem loop_line (hs : Ready s) {k : Chunk} (hk : k.Clear) (hne : k.data ≠ []) (rest : List Byte) :
    chunkLoop maxSize 0 s (k.line ++ rest) = loopData maxSize (s.withSize k) rest := by
  have hlen : (s.withSize k).iChunkLen ≠ 0 := fun h => hne (List.length_eq_zero_iff.1 h)
  have hcheck : (s.withSize k).iCheckChunk = true := hs.check
  rw [hs.size, Chunk.tail, List.append_assoc, List.append_assoc]
  rcases hk with h | hblanks | ⟨hext, hcr⟩
  · exact absurd h hne
  · rw [hblanks, List.nil_append, loop_ext hcheck k.ext_start k.ext_eol]
    exact @loop_behindBlanks _ _ hcheck hlen [] nofun rest
  · rw [hext, hcr]
    exact loop_behindBlanks hcheck hlen k.blanks_blank rest

/-- The size line of a chunk without data. -/
theorem loop_emptyLine (hs : Ready s) {k : Chunk} (hk : k.data = []) (rest : List Byte) :
    chunkLoop maxSize 0 s (k.line ++ rest) = chunkLoop maxSize 0 s rest := by
  have htail : ∀ (blanks : List Byte) (t : ChunkState), (∀ c ∈ blanks, blank c = true) →
      t.iCheckChunk = true → t.iChunkLen = 0 → t.restart = s →
      chunkLoop maxSize 0 t (blanks ++ (k.ext ++ (lineEnd k.lineCr ++ rest))) =
        chunkLoop maxSize 0 s rest := by
    intro blanks
    induction blanks with
    | nil =>
      intro t _ hcheck hlen ht
      rw [List.nil_append, loop_ext hcheck k.ext_start k.ext_eol, loop_eol hlen, ht]
    | cons c blanks ih =>
      intro t hblanks hcheck hlen ht
      rw [List.cons_append, loop_blank hcheck hlen (hblanks c List.mem_cons_self), ht]
      exact ih s (fun c' hc' => hblanks c' (List.mem_cons_of_mem _ hc')) hs.check hs.len
        hs.restart_eq
  rw [hs.size, Chunk.tail, List.append_assoc, List.append_assoc]
  refine htail k.blanks _ k.blanks_blank hs.check (List.length_eq_zero_iff.2 hk) ?_
  exact (show (s.withSize k).restart = s.restart from rfl).trans hs.restart_eq

/-- A whole chunk. -/
theorem loop_chunk (hs : Ready s) {k : Chunk} (hk : k.Clear)
    (hroom : s.iChunkBuf.length + k.data.length ≤ maxSize) (rest : List Byte) :
    chunkLoop maxSize 0 s (k.bytes ++ rest) = chunkLoop maxSize 0 (s.add k.data) rest := by
  rw [Chunk.bytes, List.append_assoc, List.append_assoc]
  by_cases hdata : k.data = []
  · rw [loop_emptyLine hs hdata, hdata, List.nil_append, add_nil,
      loop_lineEnd hs.check hs.len, hs.restart_eq]
  · have hlen : k.data.length ≠ 0 := fun h => hdata (List.length_eq_zero_iff.1 h)
    have hend : 1 ≤ (lineEnd k.dataCr).length := by
      cases k.dataCr <;> decide
    have hnot : ¬ k.data.length > (k.data ++ (lineEnd k.dataCr ++ rest)).length := by
      rw [List.length_append]
      omega
    have hclip : (s.withSize k).clip (k.data ++ (lineEnd k.dataCr ++ rest)).length = s.withSize k :=
      if_neg hnot
    have hmore : ¬ (k.data ++ (lineEnd k.dataCr ++ rest)).length ≤ k.data.length := by
      rw [List.length_append, List.length_append]
      omega
    have hcopy : ((s.withSize k).copy maxSize (k.data ++ (lineEnd k.dataCr ++ rest))).restart =
        s.add k.data := by
      have hbuf : (if s.iChunkBuf.length + k.data.length ≤ maxSize then
          s.iChunkBuf ++ (k.data ++ (lineEnd k.dataCr ++ rest)).take k.data.length
          else s.iChunkBuf) = s.iChunkBuf ++ k.data := by
        rw [if_pos hroom, List.take_left]
      have hready := (hs.add k.data).restart_eq
      rw [← hready]
      unfold ChunkState.copy ChunkState.restart ChunkState.add ChunkState.withSize
      dsimp only
      rw [hbuf]
      simp [hdata]
    rw [loop_line hs hk hdata, loopData, hclip]
    refine (if_neg hlen).trans ((if_neg hmore).trans ?_)
    rw [hcopy]
    show chunkLoop maxSize 0 _ (List.drop (k.data.length + 1) _) = _
    rw [← List.drop_drop, List.drop_left]
    cases k.dataCr with
    | false => rfl
    | true => exact (loop_eol (hs.add _).len rest).trans (by rw [(hs.add _).restart_eq])

/-- Some chunks. -/
theorem loop_wire (hs : Ready s) (ks : List Chunk) (hks : ∀ k ∈ ks, k.Clear)
    (hroom : s.iChunkBuf.length + (payload ks).length ≤ maxSize) (rest : List Byte) :
    chunkLoop maxSize 0 s (wire ks ++ rest) = chunkLoop maxSize 0 (s.add (payload ks)) rest := by
  induction ks generalizing s with
  | nil => rw [payload, List.flatMap_nil, add_nil]; rfl
  | cons k ks ih =>
    rw [payload, List.flatMap_cons, List.length_append] at hroom
    have hk := hks k List.mem_cons_self
    rw [wire, List.flatMap_cons, List.append_assoc, loop_chunk hs hk (by omega)]
    have hroom' : (s.add k.data).iChunkBuf.length + (payload ks).length ≤ maxSize := by
      show (s.iChunkBuf ++ k.data).length + _ ≤ _
      rw [List.length_append, payload]
      omega
    refine (ih (hs.add k.data) (fun k' hk' => hks k' (List.mem_cons_of_mem _ hk')) hroom').trans ?_
    rw [add_add, payload, payload, List.flatMap_cons]

/-- A chunk that is cut off in its data. -/
theorem loop_last (hs : Ready s) {k : Chunk} (hk : k.Clear) {x y : List Byte} (hxy : k.data = x ++ y)
    (hroom : s.iChunkBuf.length + x.length ≤ maxSize) (hzero : s.updatedChunkRemainder = 0) :
    ∃ t, chunkLoop maxSize 0 s (k.line ++ x) = some t ∧ t.iChunkBuf = s.iChunkBuf ++ x ∧
      t.chunkPresent = (s.chunkPresent || x ≠ []) ∧ t.updatedChunkRemainder = y.length := by
  by_cases hdata : k.data = []
  · obtain ⟨rfl, rfl⟩ := List.append_eq_nil_iff.1 (hxy.symm.trans hdata)
    rw [loop_emptyLine hs hdata]
    exact ⟨s, rfl, by rw [List.append_nil], by simp, hzero⟩
  · have hlen : k.data.length = x.length + y.length := by rw [hxy, List.length_append]
    obtain ⟨t, ht, hbuf, hpresent, hupdated, htlen⟩ : ∃ t, (s.withSize k).clip x.length = t ∧
        t.iChunkBuf = s.iChunkBuf ∧ t.chunkPresent = s.chunkPresent ∧
        t.updatedChunkRemainder = y.length ∧ t.iChunkLen = x.length := by
      refine ⟨_, rfl, ?_⟩
      unfold ChunkState.clip
      split_ifs with hgt
      · refine ⟨rfl, rfl, ?_, rfl⟩
        show k.data.length - x.length = _
        omega
      · have hle : k.data.length ≤ x.length := Nat.not_lt.1 hgt
        refine ⟨rfl, rfl, ?_, ?_⟩
        · show s.updatedChunkRemainder = _
          omega
        · show k.data.length = _
          omega
    rw [loop_line hs hk hdata, loopData, ht, htlen]
    by_cases hx : x = []
    · subst hx
      exact ⟨t, if_pos rfl, by rw [hbuf, List.append_nil], by rw [hpresent]; simp, hupdated⟩
    · have hxlen : ¬ x.length = 0 := fun h => hx (List.length_eq_zero_iff.1 h)
      rw [if_neg hxlen, if_pos le_rfl]
      refine ⟨_, rfl, ?_, ?_, hupdated⟩
      · show (if t.iChunkBuf.length + t.iChunkLen ≤ maxSize then _ else _) = _
        rw [hbuf, htlen, if_pos hroom, List.take_length]
      · show true = _
        simp [hx]

end Loop

/-! ### Packets -/

/-- A packet, and the chunk data in it. -/
structure Packet where
  bytes : List Byte
  data : List Byte

/-- The packets of what is left of a body: the rest `d` of the data of a chunk, the line end `e` behind
it, and more chunks.  The cuts are inside chunk data or at its edges. -/
inductive Cut : List Byte → List Byte → List Chunk → List Packet → Prop
  | last (d e : List Byte) (ks : List Chunk) : Cut d e ks [⟨d ++ (e ++ wire ks), d ++ payload ks⟩]
  | inside (x : List Byte) {d e : List Byte} {ks : List Chunk} {ps : List Packet}
    (h : Cut d e ks ps) : Cut (x ++ d) e ks (⟨x, x⟩ :: ps)
  | further (d e : List Byte) (ks : List Chunk) {k : Chunk} {ks' : List Chunk} {x y : List Byte}
    {ps : List Packet} (hk : k.data = x ++ y) (h : Cut y (lineEnd k.dataCr) ks' ps) :
    Cut d e (ks ++ k :: ks')
      (⟨d ++ (e ++ (wire ks ++ (k.line ++ x))), d ++ (payload ks ++ x)⟩ :: ps)

/-- Their data is the data of the chunks. -/
theorem Cut.data_eq {d e : List Byte} {ks : List Chunk} {ps : List Packet} (h : Cut d e ks ps) :
    ps.flatMap Packet.data = d ++ payload ks := by
  induction h with
  | last d e ks => simp
  | inside x h ih => rw [List.flatMap_cons, ih, List.append_assoc]
  | further d e ks hk h ih =>
    rw [List.flatMap_cons, ih]
    simp [payload, hk]

theorem payload_length_le (ks : List Chunk) : (payload ks).length ≤ (wire ks).length := by
  induction ks with
  | nil => exact le_rfl
  | cons k ks ih =>
    rw [payload, wire, List.flatMap_cons, List.flatMap_cons, List.length_append, List.length_append]
    have hk : k.data.length ≤ k.bytes.length := by
      rw [Chunk.bytes, List.length_append, List.length_append]
      omega
    exact Nat.add_le_add hk ih

section Calls

variable {maxSize : ℕ}

/-- The rest of a chunk in a packet for which there is room. -/
theorem takeRemainder_eq {data : List Byte} {rem : ℕ} (hsize : data.length ≤ maxSize) (hrem : rem ≠ 0)
    (hdata : data ≠ []) :
    takeRemainder maxSize data rem =
      ({ chunkPresent := true, iChunkBuf := data.take rem,
         updatedChunkRemainder := rem - data.length }, min rem data.length) := by
  have hlen := List.length_pos_iff.2 hdata
  have hif : (if data.length < maxSize then
      if rem > data.length then (rem - data.length, data.length) else (0, rem)
      else if rem > maxSize then (rem - maxSize, maxSize) else (0, rem)) =
      (rem - data.length, min rem data.length) := by
    split_ifs
    · rw [Nat.min_eq_right (by omega)]
    · rw [Nat.min_eq_left (by omega), Nat.sub_eq_zero_of_le (by omega)]
    · rw [show maxSize = data.length by omega, Nat.min_eq_right (by omega)]
    · rw [Nat.min_eq_left (by omega), Nat.sub_eq_zero_of_le (by omega)]
  have hmin : 1 ≤ min rem data.length ∧ min rem data.length ≤ data.length := by omega
  unfold takeRemainder
  rw [if_neg hrem]
  dsimp only
  rw [hif]
  dsimp only
  rw [if_pos hmin, ← List.take_eq_take_min]

/-- The rest of a chunk that ends in the packet. -/
theorem takeRemainder_whole {d rest : List Byte} (hsize : (d ++ rest).length ≤ maxSize) :
    takeRemainder maxSize (d ++ rest) d.length = (ChunkState.add {} d, d.length) := by
  have hlen : (d ++ rest).length = d.length + rest.length := List.length_append
  by_cases hd : d = []
  · rw [hd]
    rfl
  · have hne : d ++ rest ≠ [] := fun h => hd (List.append_eq_nil_iff.1 h).1
    have hpos := List.length_pos_iff.2 hd
    rw [takeRemainder_eq hsize (by omega) hne, List.take_left, Nat.sub_eq_zero_of_le (by omega),
      Nat.min_eq_left (by omega)]
    simp [ChunkState.add, hd]

/-- Nothing is copied from a packet without bytes. -/
theorem takeRemainder_nil (rem : ℕ) :
    (takeRemainder maxSize [] rem).1.iChunkBuf = [] ∧
      (takeRemainder maxSize [] rem).1.chunkPresent = false := by
  unfold takeRemainder
  by_cases hrem : rem = 0
  · rw [if_pos hrem]
    exact ⟨rfl, rfl⟩
  · rw [if_neg hrem]
    dsimp only
    generalize (if ([] : List Byte).length < maxSize then _ else _ : ℕ × ℕ) = p
    obtain ⟨updated, n⟩ := p
    have hn : ¬ (1 ≤ n ∧ n ≤ ([] : List Byte).length) := fun h => absurd (h.1.trans h.2) (by decide)
    dsimp only
    rw [if_neg hn]
    exact ⟨rfl, rfl⟩

/-- A packet inside the data of a chunk. -/
theorem checkChunkEncoding_inside {x : List Byte} (y : List Byte) (hsize : x.length ≤ maxSize) :
    ∃ t, checkChunkEncoding maxSize x (x ++ y).length = some t ∧ t.iChunkBuf = x ∧
      t.chunkPresent = decide (x ≠ []) ∧ (x ≠ [] → t.updatedChunkRemainder = y.length) := by
  have hlen : (x ++ y).length = x.length + y.length := List.length_append
  by_cases hx : x = []
  · subst hx
    obtain ⟨hbuf, hpresent⟩ := @takeRemainder_nil maxSize y.length
    refine ⟨(takeRemainder maxSize [] y.length).1, ?_, hbuf, hpresent, fun h => absurd rfl h⟩
    exact (chunkLoop_ahead _ _ _).trans (by rw [List.drop_nil]; rfl)
  · have hpos := List.length_pos_iff.2 hx
    have htake := @takeRemainder_eq maxSize x (x ++ y).length hsize (by omega) hx
    rw [List.take_of_length_le (by omega), Nat.min_eq_right (by omega)] at htake
    rw [checkChunkEncoding, htake]
    refine ⟨_, (chunkLoop_ahead _ _ _).trans (by rw [List.drop_length]; rfl), rfl, ?_, fun _ => ?_⟩
    · exact (decide_eq_true hx).symm
    · show (x ++ y).length - x.length = _
      omega

/-- A packet that goes on behind the data of a chunk. -/
theorem checkChunkEncoding_whole {d e rest : List Byte} (he : e = [] ∨ ∃ cr, e = lineEnd cr)
    (hsize : (d ++ (e ++ rest)).length ≤ maxSize) :
    checkChunkEncoding maxSize (d ++ (e ++ rest)) d.length =
      chunkLoop maxSize 0 (ChunkState.add {} d) rest := by
  have hready : Ready (ChunkState.add {} d) := ⟨rfl, rfl, rfl⟩
  rw [checkChunkEncoding, takeRemainder_whole hsize]
  dsimp only
  rw [chunkLoop_ahead, List.drop_left]
  rcases he with rfl | ⟨cr, rfl⟩
  · rfl
  · rw [loop_lineEnd hready.check hready.len, hready.restart_eq]

/-- What is kept behind a packet with the chunk data `x`, when `n` bytes of a chunk are to come. -/
def behindPacket (x : List Byte) (n : ℕ) (r : RespState) : RespState :=
  if x = [] then { r with lastPktChunked := false } else ⟨true, n⟩

theorem hiServerExtractBody_eq {p x : List Byte} {m n : ℕ} {t : ChunkState}
    (ht : checkChunkEncoding maxSize p m = some t) (hbuf : t.iChunkBuf = x)
    (hpresent : t.chunkPresent = decide (x ≠ [])) (hn : x ≠ [] → t.updatedChunkRemainder = n) :
    hiServerExtractBody maxSize ⟨true, m⟩ p = some (x, behindPacket x n ⟨true, m⟩) := by
  unfold hiServerExtractBody behindPacket
  rw [if_pos rfl, ht, Option.map_some, hpresent, hbuf]
  by_cases hx : x = []
  · rw [if_pos hx, if_neg (by simp [hx])]
  · rw [if_neg hx, if_pos (by simp [hx]), hn hx]

/-- A packet inside the data of a chunk. -/
theorem extract_inside {x : List Byte} (y : List Byte) (hsize : x.length ≤ maxSize) :
    hiServerExtractBody maxSize ⟨true, (x ++ y).length⟩ x =
      some (x, behindPacket x y.length ⟨true, (x ++ y).length⟩) := by
  obtain ⟨t, ht, hbuf, hpresent, hn⟩ := checkChunkEncoding_inside y hsize
  exact hiServerExtractBody_eq ht hbuf hpresent hn

/-- A packet that ends in the data of another chunk. -/
theorem extract_further {d e x y : List Byte} {ks : List Chunk} {k : Chunk}
    (he : e = [] ∨ ∃ cr, e = lineEnd cr) (hks : ∀ k ∈ ks, k.Clear) (hk : k.Clear)
    (hxy : k.data = x ++ y)
    (hsize : (d ++ (e ++ (wire ks ++ (k.line ++ x)))).length ≤ maxSize) :
    hiServerExtractBody maxSize ⟨true, d.length⟩ (d ++ (e ++ (wire ks ++ (k.line ++ x)))) =
      some (d ++ (payload ks ++ x),
        behindPacket (d ++ (payload ks ++ x)) y.length ⟨true, d.length⟩) := by
  have hpayload := payload_length_le ks
  have hlen := hsize
  simp only [List.length_append] at hlen
  have hready : Ready (ChunkState.add {} d) := ⟨rfl, rfl, rfl⟩
  have hready' := hready.add (payload ks)
  obtain ⟨t, ht, hbuf, hpresent, hupdated⟩ := @loop_last maxSize _ hready' _ hk _ _ hxy (by
    show ([] ++ d ++ payload ks).length + x.length ≤ maxSize
    simp only [List.length_append, List.length_nil]
    omega) rfl
  have hcheck := checkChunkEncoding_whole he hsize
  rw [loop_wire hready ks hks (by
    show ([] ++ d).length + _ ≤ _
    rw [List.nil_append]
    omega), ht] at hcheck
  refine hiServerExtractBody_eq hcheck ?_ ?_ fun _ => hupdated
  · rw [hbuf]
    show [] ++ d ++ payload ks ++ x = _
    rw [List.nil_append, List.append_assoc]
  · rw [hpresent]
    show (false || decide (d ≠ []) || decide (payload ks ≠ []) || decide (x ≠ [])) = _
    simp [Bool.or_assoc]

/-- The last packet. -/
theorem extract_end {d e : List Byte} {ks : List Chunk} (he : e = [] ∨ ∃ cr, e = lineEnd cr)
    (hks : ∀ k ∈ ks, k.Clear) (hsize : (d ++ (e ++ wire ks)).length ≤ maxSize) :
    ∃ r, hiServerExtractBody maxSize ⟨true, d.length⟩ (d ++ (e ++ wire ks)) =
      some (d ++ payload ks, r) := by
  have hpayload := payload_length_le ks
  have hlen := hsize
  simp only [List.length_append] at hlen
  have hready : Ready (ChunkState.add {} d) := ⟨rfl, rfl, rfl⟩
  have hcheck := checkChunkEncoding_whole he hsize
  have hloop := @loop_wire maxSize _ hready ks hks (by
    show ([] ++ d).length + _ ≤ _
    rw [List.nil_append]
    omega) []
  rw [List.append_nil] at hloop
  rw [hloop] at hcheck
  refine ⟨_, hiServerExtractBody_eq hcheck ?_ ?_ fun _ => rfl⟩
  · show [] ++ d ++ payload ks = _
    rw [List.nil_append]
  · show (false || decide (d ≠ []) || decide (payload ks ≠ [])) = _
    simp

/-- Nothing is copied once the body is not taken to be chunked. -/
theorem extractAll_done {r : RespState} (h : r.lastPktChunked = false) (ps : List (List Byte)) :
    extractAll maxSize r ps = some [] := by
  induction ps with
  | nil => rfl
  | cons p ps ih =>
    have hbody : hiServerExtractBody maxSize r p = some ([], r) := if_neg (by rw [h]; nofun)
    rw [extractAll, hbody]
    simp [ih]

/-- The data up to the first packet without any. -/
def copied (ps : List Packet) : List Byte := (ps.takeWhile (·.data ≠ [])).flatMap Packet.data

/-- One packet, and what is copied of those behind it. -/
theorem extractAll_cons {m n : ℕ} {p : Packet} {ps : List Packet}
    (hp : hiServerExtractBody maxSize ⟨true, m⟩ p.bytes =
      some (p.data, behindPacket p.data n ⟨true, m⟩))
    (hps : extractAll maxSize ⟨true, n⟩ (ps.map Packet.bytes) = some (copied ps)) :
    extractAll maxSize ⟨true, m⟩ ((p :: ps).map Packet.bytes) = some (copied (p :: ps)) := by
  rw [List.map_cons, extractAll, hp]
  by_cases hempty : p.data = []
  · have hdone := @extractAll_done maxSize (behindPacket p.data n ⟨true, m⟩)
      (by rw [behindPacket, if_pos hempty]) (ps.map Packet.bytes)
    rw [hempty] at hdone ⊢
    simp [hdone, copied, hempty]
  · have hbehind : behindPacket p.data n ⟨true, m⟩ = ⟨true, n⟩ := if_neg hempty
    simp [hbehind, hps, copied, hempty]

/-- What is copied of the packets of a body. -/
theorem extractAll_of_cut {d e : List Byte} {ks : List Chunk} {ps : List Packet} (h : Cut d e ks ps)
    (he : e = [] ∨ ∃ cr, e = lineEnd cr) (hks : ∀ k ∈ ks, k.Clear)
    (hsize : ∀ p ∈ ps, p.bytes.length ≤ maxSize) :
    extractAll maxSize ⟨true, d.length⟩ (ps.map Packet.bytes) = some (copied ps) := by
  induction h with
  | last d e ks =>
    obtain ⟨r, hr⟩ := extract_end he hks (hsize _ List.mem_cons_self)
    by_cases hempty : d ++ payload ks = []
    · simp [extractAll, hr, copied, hempty]
    · simp [extractAll, hr, copied, List.append_eq_nil_iff.not.1 hempty]
  | inside x h ih =>
    refine extractAll_cons (extract_inside _ (hsize _ List.mem_cons_self)) ?_
    exact ih he hks fun p hp => hsize p (List.mem_cons_of_mem _ hp)
  | further d e ks hk h ih =>
    have hpacket := extract_further he (fun k hk => hks k (List.mem_append_left _ hk))
      (hks _ (List.mem_append_right _ List.mem_cons_self)) hk (hsize _ List.mem_cons_self)
    refine extractAll_cons hpacket ?_
    exact ih (Or.inr ⟨_, rfl⟩)
      (fun k hk => hks k (List.mem_append_right _ (List.mem_cons_of_mem _ hk)))
      fun p hp => hsize p (List.mem_cons_of_mem _ hp)

/-- When all data is copied. -/
theorem copied_eq_iff (ps : List Packet) :
    copied ps = ps.flatMap Packet.data ↔ ps.Pairwise fun p q => p.data = [] → q.data = [] := by
  induction ps with
  | nil => exact ⟨fun _ => .nil, fun _ => rfl⟩
  | cons p ps ih =>
    rw [List.pairwise_cons, ← ih, List.flatMap_cons]
    by_cases hempty : p.data = []
    · have hcopied : copied (p :: ps) = [] := by simp [copied, hempty]
      rw [hcopied, hempty, List.nil_append, eq_comm, List.flatMap_eq_nil_iff]
      refine ⟨fun h => ⟨fun q hq _ => h q hq, ?_⟩, fun h q hq => h.1 q hq rfl⟩
      rw [ih, List.pairwise_iff_forall_sublist]
      exact fun hsub _ => h _ (hsub.subset (by simp))
    · have hcopied : copied (p :: ps) = p.data ++ copied ps := by simp [copied, hempty]
      rw [hcopied, List.append_cancel_left_eq]
      exact ⟨fun h => ⟨fun q _ hp => absurd hp hempty, h⟩, fun h => h.2⟩

end Calls

/-- **Chunked bodies, packet by packet.**  If no size line of a chunk with data has blanks in front of
an extension or a carriage return, no byte behind a packet is read, and the data of the chunks is copied
exactly if no packet without chunk data is followed by one with chunk data. -/
theorem extractAll_cut {maxSize : ℕ} {ks : List Chunk} {ps : List Packet} (h : Cut [] [] ks ps)
    (hsize : ∀ p ∈ ps, p.bytes.length ≤ maxSize) (hclear : ∀ k ∈ ks, k.Clear) :
    (extractAll maxSize ⟨true, 0⟩ (ps.map Packet.bytes)).isSome = true ∧
      (extractAll maxSize ⟨true, 0⟩ (ps.map Packet.bytes) = some (payload ks) ↔
        ps.Pairwise fun p q => p.data = [] → q.data = []) := by
  have hcut := extractAll_of_cut h (Or.inl rfl) hclear hsize
  have hdata : payload ks = ps.flatMap Packet.data := h.data_eq.symm
  rw [List.length_nil] at hcut
  rw [hcut, hdata, Option.some_inj]
  exact ⟨rfl, copied_eq_iff ps⟩

/-- A chunk of five bytes. -/
def hello (blanks : List Byte) (hblanks : ∀ c ∈ blanks, blank c = true) : Chunk where
  size := [chr '5']
  blanks := blanks
  ext := []
  lineCr := true
  data := "hello".toList.map chr
  dataCr := true
  size_hex := by decide
  size_pos := by decide
  size_le := by decide
  size_eq := by decide
  blanks_blank := hblanks
  ext_start := Or.inl rfl
  ext_eol := List.not_mem_nil

/-- A last chunk. -/
def lastChunk : Chunk where
  size := [chr '0']
  blanks := []
  ext := ";a=b".toList.map chr
  lineCr := true
  data := []
  dataCr := true
  size_hex := by decide
  size_pos := by decide
  size_le := by decide
  size_eq := by decide
  blanks_blank := nofun
  ext_start := by decide
  ext_eol := by decide

/-- A cut in the data of the first chunk. -/
theorem extractAll_cut_hello :
    let ps : List Packet := [⟨"5\r\nhel".toList.map chr, "hel".toList.map chr⟩,
      ⟨"lo\r\n0;a=b\r\n\r\n".toList.map chr, "lo".toList.map chr⟩]
    (extractAll 100 ⟨true, 0⟩ (ps.map Packet.bytes)).isSome = true ∧
      (extractAll 100 ⟨true, 0⟩ (ps.map Packet.bytes) = some ("hello".toList.map chr) ↔
        ps.Pairwise fun p q => p.data = [] → q.data = []) := by
  have hcut : Cut [] [] [hello [] nofun, lastChunk] _ :=
    .further [] [] [] (x := "hel".toList.map chr) (y := "lo".toList.map chr) rfl (.last _ _ [lastChunk])
  exact extractAll_cut hcut (by decide) (by decide)

/-- A packet boundary in front of the data, where the length that is left is forgotten. -/
theorem extractAll_edge : ¬ ∀ (maxSize : ℕ) (ks : List Chunk) (ps : List Packet), Cut [] [] ks ps →
    (∀ p ∈ ps, p.bytes.length ≤ maxSize) →
      extractAll maxSize ⟨true, 0⟩ (ps.map Packet.bytes) = some (payload ks) := by
  intro h
  have hcut : Cut [] [] [hello [] nofun, lastChunk] _ :=
    .further [] [] [] (x := []) (y := "hello".toList.map chr) rfl (.last _ _ [lastChunk])
  exact absurd (h 100 _ _ hcut (by decide)) (by decide +kernel)

/-- With a blank behind the size the carriage return is taken for data. -/
example : extractAll 100 ⟨true, 0⟩ [(hello [chr ' '] (by decide)).bytes] =
    some ("\r\nhel".toList.map chr) := by
  decide +kernel

end Snort.HttpInspect
