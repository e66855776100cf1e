import Snort.Lib.Buffer

/-!
# Unfolded headers: `sf_unfold_header`

A line end followed by a blank folds a header line.  `sf_unfold_header` copies the line without its
folds up to the first line end that is not one, or until it has counted `outbuf_size` characters.
Blanks are copied without being counted.  Sizes are below `2 ^ 32`.

* `sfUnfoldHeader`, with every store to the output buffer;
* `logicalLine`: the header line, as the protocol has it;
* `unfoldLoop_eq`: the loop copies the header line up to its `outbuf_size`th character other than a
  blank;
* **`sfUnfoldHeader_correct_iff`**: when all stores are inside the buffer.
-/

namespace Snort.Unfold

open Buffer

abbrev Byte := BitVec 8

def lf : Byte := 0x0a

def cr : Byte := 0x0d

/-- A space or a tab. -/
def isBlank (c : Byte) : Bool := c == 0x20 || c == 0x09

/-- `httpheaderfolding`: 0, 1 behind a LF, 2 behind a CR. -/
inductive Folding
  | no
  | lf
  | cr
  deriving DecidableEq

/-- The variables of the loop.  `out` is what has been stored through `outbuf_ptr`, from `outbuf`
on. -/
structure State where
  n : ℕ
  numSpaces : ℕ
  folding : Folding
  foldingPresent : Bool
  out : List Byte

/-- The beginning of the loop. -/
def State.start : State := ⟨0, 0, .no, false, []⟩

/-- The body of the loop, for the byte at `cursor`; nothing for `break`. -/
def unfoldChar (trimSpaces : Bool) (s : State) (c : Byte) : Option State :=
  if isBlank c then
    let spaces := if s.foldingPresent then s.numSpaces + 1 else s.numSpaces
    if s.folding ≠ .no then
      some { s with numSpaces := spaces + 1, foldingPresent := true, folding := .no }
    else if trimSpaces then some { s with numSpaces := spaces }
    else some { s with numSpaces := spaces, out := s.out ++ [c] }
  else if c = lf ∧ s.folding ≠ .lf then some { s with folding := .lf }
  else if c = cr ∧ s.folding = .no then some { s with folding := .cr }
  else if s.folding = .no then some { s with out := s.out ++ [c], n := s.n + 1 }
  else none

/-- The loop. -/
def unfoldLoop (outbufSize : ℕ) (trimSpaces : Bool) : State → List Byte → State
  | s, [] => s
  | s, c :: cs =>
    if s.n < outbufSize then
      match unfoldChar trimSpaces s c with
      | some s' => unfoldLoop outbufSize trimSpaces s' cs
      | none => s
    else s

/-- What `sf_unfold_header` does: the stores to `outbuf`, one after the other, `*output_bytes` and
`*folded`. -/
structure Unfolded where
  stores : List (ℕ × Byte)
  outputBytes : ℕ
  folded : ℕ

def sfUnfoldHeader (inbuf : List Byte) (outbufSize : ℕ) (trimSpaces : Bool) : Unfolded :=
  let s := unfoldLoop outbufSize trimSpaces .start inbuf
  let nul := if s.n < outbufSize then s.out.length else outbufSize - 1
  ⟨(s.out.zipIdx.map fun p => (p.2, p.1)) ++ [(nul, 0)], s.out.length, s.numSpaces⟩

/-- The memory at `outbuf` after the call. -/
def Unfolded.memory (r : Unfolded) (outbuf : ℕ → Byte) : ℕ → Byte :=
  r.stores.foldl (fun m p => Function.update m p.1 p.2) outbuf

/-- The output. -/
def Unfolded.output (r : Unfolded) (outbuf : ℕ → Byte) : List Byte :=
  readBuf (r.memory outbuf) 0 r.outputBytes

/-! ### The header line -/

/-- The header line at the beginning of a text: up to the first line end, CR LF, LF or CR, that no
blank follows.  The other line ends go with the blank behind them, and with `trimSpaces` all blanks
do. -/
def logicalLine (trimSpaces : Bool) : List Byte → List Byte
  | [] => []
  | c :: cs =>
    if c = lf ∨ c = cr then
      match cs with
      | [] => []
      | d :: ds =>
        if isBlank d then logicalLine trimSpaces ds
        else if c = cr ∧ d = lf then
          match ds with
          | [] => []
          | b :: rest => if isBlank b then logicalLine trimSpaces rest else []
        else []
    else if trimSpaces && isBlank c then logicalLine trimSpaces cs
    else c :: logicalLine trimSpaces cs

variable {trimSpaces : Bool} {outbufSize : ℕ}

/-- What is left of the header line behind a LF. -/
def afterLf (trimSpaces : Bool) : List Byte → List Byte
  | [] => []
  | b :: rest => if isBlank b then logicalLine trimSpaces rest else []

/-- What is left of the header line behind a CR. -/
def afterCr (trimSpaces : Bool) : List Byte → List Byte
  | [] => []
  | d :: ds =>
    if isBlank d then logicalLine trimSpaces ds else if d = lf then afterLf trimSpaces ds else []

/-- What is left of the header line. -/
def pending (trimSpaces : Bool) : Folding → List Byte → List Byte
  | .no => logicalLine trimSpaces
  | .lf => afterLf trimSpaces
  | .cr => afterCr trimSpaces

@[simp] theorem pending_nil (f : Folding) : pending trimSpaces f [] = [] := by
  cases f <;> rfl

theorem isBlank_lf : isBlank lf = false := by decide

theorem isBlank_cr : isBlank cr = false := by decide

theorem cr_ne_lf : cr ≠ lf := by decide

theorem ne_of_isBlank {c : Byte} (h : isBlank c = true) : c ≠ lf ∧ c ≠ cr := by
  constructor
  · rintro rfl
    exact absurd h (by simp [isBlank_lf])
  · rintro rfl
    exact absurd h (by simp [isBlank_cr])

theorem logicalLine_lf (cs : List Byte) :
    logicalLine trimSpaces (lf :: cs) = afterLf trimSpaces cs := by
  unfold logicalLine
  cases cs with
  | nil => simp [afterLf]
  | cons d ds => simp [afterLf, cr_ne_lf.symm]

theorem logicalLine_cr (cs : List Byte) :
    logicalLine trimSpaces (cr :: cs) = afterCr trimSpaces cs := by
  unfold logicalLine
  cases cs with
  | nil => simp [afterCr]
  | cons d ds =>
    cases ds with
    | nil => simp [afterCr, afterLf]
    | cons b rest => simp [afterCr, afterLf]

/-- A character that ends no line. -/
theorem logicalLine_other {c : Byte} (hlf : c ≠ lf) (hcr : c ≠ cr) (cs : List Byte) :
    logicalLine trimSpaces (c :: cs) =
      if trimSpaces && isBlank c then logicalLine trimSpaces cs
      else c :: logicalLine trimSpaces cs := by
  conv_lhs => unfold logicalLine
  exact if_neg (not_or.2 ⟨hlf, hcr⟩)

/-- A blank behind a line end. -/
theorem pending_fold {f : Folding} {c : Byte} (hf : f ≠ .no) (hblank : isBlank c = true)
    (cs : List Byte) : pending trimSpaces f (c :: cs) = logicalLine trimSpaces cs := by
  cases f with
  | no => exact absurd rfl hf
  | lf => exact if_pos hblank
  | cr => exact if_pos hblank

/-- Behind a line end nothing but a blank goes on. -/
theorem pending_stop {f : Folding} {c : Byte} (hf : f ≠ .no) (hblank : isBlank c = false)
    (hlf : c = lf → f = .lf) (cs : List Byte) : pending trimSpaces f (c :: cs) = [] := by
  cases f with
  | no => exact absurd rfl hf
  | lf => simp [pending, afterLf, hblank]
  | cr =>
    have hne : c ≠ lf := fun h => Folding.noConfusion (hlf h)
    simp [pending, afterCr, hblank, hne]

/-! ### The loop -/

/-- A text up to its `k`th character other than a blank. -/
def upTo : ℕ → List Byte → List Byte
  | 0, _ => []
  | _, [] => []
  | k + 1, c :: cs => c :: upTo (if isBlank c then k + 1 else k) cs

@[simp] theorem upTo_zero (t : List Byte) : upTo 0 t = [] := by
  cases t <;> rfl

@[simp] theorem upTo_nil (k : ℕ) : upTo k [] = [] := by
  cases k <;> rfl

/-- The number of characters other than blanks. -/
def chars (t : List Byte) : ℕ := t.countP fun c => !isBlank c

@[simp] theorem chars_nil : chars [] = 0 := rfl

theorem chars_append (t u : List Byte) : chars (t ++ u) = chars t + chars u := List.countP_append

theorem chars_cons (c : Byte) (t : List Byte) : chars (c :: t) = chars [c] + chars t :=
  chars_append [c] t

theorem chars_le_length (t : List Byte) : chars t ≤ t.length := List.countP_le_length

theorem upTo_cons {k : ℕ} (hk : 0 < k) (c : Byte) (t : List Byte) :
    upTo k (c :: t) = c :: upTo (k - chars [c]) t := by
  obtain ⟨k, rfl⟩ := Nat.exists_eq_succ_of_ne_zero hk.ne'
  cases h : isBlank c <;> simp [upTo, chars, h]

/-- What one byte does: the header line ends before it, or it belongs to a fold or is trimmed, or it
is copied. -/
theorem unfoldChar_cases (trimSpaces : Bool) (s : State) (c : Byte) :
    (unfoldChar trimSpaces s c = none ∧ ∀ cs, pending trimSpaces s.folding (c :: cs) = []) ∨
    (∃ s', unfoldChar trimSpaces s c = some s' ∧ s'.out = s.out ∧ s'.n = s.n ∧
      ∀ cs, pending trimSpaces s.folding (c :: cs) = pending trimSpaces s'.folding cs) ∨
    (∃ s', unfoldChar trimSpaces s c = some s' ∧ s'.out = s.out ++ [c] ∧ s'.n = s.n + chars [c] ∧
      (trimSpaces = true → isBlank c = false) ∧
      ∀ cs, pending trimSpaces s.folding (c :: cs) = c :: pending trimSpaces s'.folding cs) := by
  have hno : s.folding = .no → ∀ cs, pending trimSpaces s.folding (c :: cs) =
      logicalLine trimSpaces (c :: cs) := by
    intro h cs
    rw [h]
    rfl
  cases hblank : isBlank c with
  | true =>
    obtain ⟨hlf, hcr⟩ := ne_of_isBlank hblank
    rw [unfoldChar, if_pos hblank]
    by_cases hf : s.folding = .no
    · rw [if_neg (not_not.2 hf)]
      cases trimSpaces with
      | true =>
        refine Or.inr (Or.inl ⟨_, rfl, rfl, rfl, fun cs => ?_⟩)
        rw [hno hf, logicalLine_other hlf hcr, hblank, hf]
        rfl
      | false =>
        refine Or.inr (Or.inr ⟨_, rfl, rfl, ?_, fun h => absurd h Bool.false_ne_true, fun cs => ?_⟩)
        · simp [chars, hblank]
        · rw [hno hf, logicalLine_other hlf hcr, hf]
          rfl
    · rw [if_pos hf]
      exact Or.inr (Or.inl ⟨_, rfl, rfl, rfl, pending_fold hf hblank⟩)
  | false =>
    rw [unfoldChar, hblank, if_neg Bool.false_ne_true]
    by_cases hlf : c = lf ∧ s.folding ≠ .lf
    · rw [if_pos hlf]
      refine Or.inr (Or.inl ⟨_, rfl, rfl, rfl, fun cs => ?_⟩)
      obtain ⟨rfl, hf⟩ := hlf
      cases h : s.folding with
      | no => exact logicalLine_lf cs
      | lf => exact absurd h hf
      | cr => simp [pending, afterCr, hblank]
    · rw [if_neg hlf]
      by_cases hcr : c = cr ∧ s.folding = .no
      · rw [if_pos hcr]
        obtain ⟨rfl, hf⟩ := hcr
        refine Or.inr (Or.inl ⟨_, rfl, rfl, rfl, fun cs => ?_⟩)
        rw [hno hf]
        exact logicalLine_cr cs
      · rw [if_neg hcr]
        by_cases hf : s.folding = .no
        · rw [if_pos hf]
          refine Or.inr (Or.inr ⟨_, rfl, rfl, ?_, fun _ => rfl, fun cs => ?_⟩)
          · simp [chars, hblank]
          · have hother : c ≠ lf ∧ c ≠ cr := by
              refine ⟨fun h => hlf ⟨h, ?_⟩, fun h => hcr ⟨h, hf⟩⟩
              rw [hf]
              exact Folding.noConfusion
            rw [hno hf, logicalLine_other hother.1 hother.2, hblank, Bool.and_false, hf]
            rfl
        · rw [if_neg hf]
          refine Or.inl ⟨rfl, pending_stop hf hblank fun h => ?_⟩
          exact not_not.1 fun hne => hlf ⟨h, hne⟩

variable (trimSpaces outbufSize) in
/-- The loop copies what is left of the header line, up to the character at which it has counted
`outbufSize`. -/
theorem unfoldLoop_eq (s : State) (l : List Byte) :
    (unfoldLoop outbufSize trimSpaces s l).out =
      s.out ++ upTo (outbufSize - s.n) (pending trimSpaces s.folding l) ∧
    (unfoldLoop outbufSize trimSpaces s l).n =
      s.n + chars (upTo (outbufSize - s.n) (pending trimSpaces s.folding l)) := by
  induction l generalizing s with
  | nil => simp [unfoldLoop]
  | cons c cs ih =>
    by_cases hn : s.n < outbufSize
    · have hk : 0 < outbufSize - s.n := Nat.sub_pos_of_lt hn
      rw [unfoldLoop, if_pos hn]
      rcases unfoldChar_cases trimSpaces s c with ⟨hstep, hend⟩ | ⟨s', hstep, hout, hcount, hskip⟩ |
        ⟨s', hstep, hout, hcount, -, hcopy⟩
      · simp [hstep, hend]
      · rw [hstep, hskip, ← hout, ← hcount]
        exact ih s'
      · obtain ⟨ihout, ihn⟩ := ih s'
        rw [hstep, hcopy, upTo_cons hk, Nat.sub_sub, ← hcount]
        constructor
        · rw [ihout, hout, List.append_assoc, List.singleton_append]
        · rw [ihn, chars_cons, ← Nat.add_assoc, ← hcount]
    · have hzero : outbufSize - s.n = 0 := Nat.sub_eq_zero_of_le (Nat.le_of_not_lt hn)
      simp [unfoldLoop, hn, hzero]

/-- With `trimSpaces` the header line has no blanks. -/
theorem logicalLine_trim (l : List Byte) : ∀ c ∈ logicalLine true l, isBlank c = false := by
  suffices h : ∀ (s : State), ∀ c ∈ pending true s.folding l, isBlank c = false from h .start
  induction l with
  | nil => simp
  | cons c cs ih =>
    intro s
    rcases unfoldChar_cases true s c with ⟨-, hend⟩ | ⟨s', -, -, -, hskip⟩ |
      ⟨s', -, -, -, hblank, hcopy⟩
    · simp [hend]
    · rw [hskip]
      exact ih s'
    · rw [hcopy]
      exact List.forall_mem_cons.2 ⟨hblank rfl, ih s'⟩

/-! ### The buffer -/

theorem upTo_isPrefix (k : ℕ) (t : List Byte) : upTo k t <+: t := by
  induction t generalizing k with
  | nil => simp
  | cons c t ih =>
    cases k with
    | zero => simp
    | succ k =>
      rw [upTo_cons (Nat.succ_pos k)]
      exact (List.prefix_cons_inj c).2 (ih _)

theorem chars_upTo_le (k : ℕ) (t : List Byte) : chars (upTo k t) ≤ k := by
  induction t generalizing k with
  | nil => simp
  | cons c t ih =>
    cases k with
    | zero => simp
    | succ k =>
      have hone : chars [c] ≤ 1 := chars_le_length [c]
      have hrest := ih (k + 1 - chars [c])
      rw [upTo_cons (Nat.add_one_pos k), chars_cons]
      omega

/-- A text with fewer characters is copied as a whole. -/
theorem upTo_of_chars_lt {k : ℕ} {t : List Byte} (h : chars (upTo k t) < k) : upTo k t = t := by
  induction t generalizing k with
  | nil => simp
  | cons c t ih =>
    have hpos : 0 < k := Nat.zero_lt_of_lt h
    rw [upTo_cons hpos, chars_cons] at h
    rw [upTo_cons hpos, ih (by omega)]

/-- Without blanks every character is counted. -/
theorem upTo_of_take {k : ℕ} {t : List Byte} (h : ∀ c ∈ t.take k, isBlank c = false) :
    upTo k t = t.take k := by
  induction t generalizing k with
  | nil => simp
  | cons c t ih =>
    cases k with
    | zero => simp
    | succ k =>
      rw [List.take_succ_cons] at h ⊢
      obtain ⟨hc, hrest⟩ := List.forall_mem_cons.1 h
      have hone : chars [c] = 1 := by simp [chars, hc]
      rw [upTo_cons (Nat.add_one_pos k), hone, Nat.add_sub_cancel, ih hrest]

/-- As many characters as places: there are no blanks. -/
theorem isBlank_of_length_le {k : ℕ} {t : List Byte} (hk : chars (upTo k t) = k)
    (h : (upTo k t).length ≤ k) : ∀ c ∈ t.take k, isBlank c = false := by
  have hlength : (upTo k t).length = chars (upTo k t) :=
    le_antisymm (h.trans hk.ge) (chars_le_length _)
  have htake : t.take k = upTo k t := by
    conv_lhs => rw [← hk, ← hlength]
    exact (List.prefix_iff_eq_take.1 (upTo_isPrefix k t)).symm
  rw [htake]
  intro c hc
  simpa using List.countP_eq_length.1 hlength.symm c hc

/-- What the stores through `outbuf_ptr` make of the memory. -/
theorem foldl_stores (out : List Byte) (k : ℕ) (outbuf : ℕ → Byte) :
    ((out.zipIdx k).map fun p => (p.2, p.1)).foldl (fun m p => Function.update m p.1 p.2) outbuf =
      write outbuf k out := by
  induction out generalizing k outbuf with
  | nil => simp
  | cons c out ih =>
    rw [List.zipIdx_cons, List.map_cons, List.foldl_cons, ih, write_cons]

/-- What the call copies, and where it puts the NUL. -/
theorem sfUnfoldHeader_eq (inbuf : List Byte) (outbufSize : ℕ) (trimSpaces : Bool) :
    ∃ spaces, sfUnfoldHeader inbuf outbufSize trimSpaces =
      let out := upTo outbufSize (logicalLine trimSpaces inbuf)
      ⟨(out.zipIdx.map fun p => (p.2, p.1)) ++
        [(if chars out < outbufSize then out.length else outbufSize - 1, 0)], out.length, spaces⟩ := by
  obtain ⟨hout, hn⟩ := unfoldLoop_eq trimSpaces outbufSize .start inbuf
  refine ⟨(unfoldLoop outbufSize trimSpaces .start inbuf).numSpaces, ?_⟩
  have hout' : (unfoldLoop outbufSize trimSpaces .start inbuf).out =
      upTo outbufSize (logicalLine trimSpaces inbuf) := hout
  have hn' : (unfoldLoop outbufSize trimSpaces .start inbuf).n =
      chars (upTo outbufSize (logicalLine trimSpaces inbuf)) := hn.trans (Nat.zero_add _)
  rw [sfUnfoldHeader, hout', hn']

theorem forall_mem_stores {out : List Byte} {nul size : ℕ} {b : Byte} :
    (∀ p ∈ (out.zipIdx.map fun p => (p.2, p.1)) ++ [(nul, b)], p.1 < size) ↔
      out.length ≤ size ∧ nul < size := by
  rw [List.forall_mem_append, List.forall_mem_singleton, List.forall_mem_map]
  refine and_congr_left' ⟨fun h => ?_, fun h p hp => ?_⟩
  · by_contra hlt
    have hlt : size < out.length := Nat.lt_of_not_le hlt
    have hmem : (out[size], size) ∈ out.zipIdx := by
      rw [List.mk_mem_zipIdx_iff_getElem?]
      exact List.getElem?_eq_getElem hlt
    exact absurd (h _ hmem) (Nat.lt_irrefl size)
  · exact (List.snd_lt_of_mem_zipIdx hp).trans_le h

/-- A text that is shorter than the buffer is the output. -/
theorem output_of_length_lt {t : List Byte} {size spaces : ℕ} (h : t.length < size)
    (outbuf : ℕ → Byte) :
    let out := upTo size t
    (⟨(out.zipIdx.map fun p => (p.2, p.1)) ++
        [(if chars out < size then out.length else size - 1, 0)], out.length, spaces⟩ :
      Unfolded).output outbuf = t := by
  have hlt : chars (upTo size t) < size :=
    ((chars_le_length _).trans (upTo_isPrefix size t).length_le).trans_lt h
  have hcopy := upTo_of_chars_lt hlt
  rw [hcopy] at hlt
  dsimp only
  rw [hcopy, if_pos hlt, Unfolded.output, Unfolded.memory, List.foldl_append, foldl_stores]
  refine (readBuf_congr fun i hi => ?_).trans (readBuf_write outbuf 0 t)
  exact Function.update_of_ne ((Nat.zero_add i).trans_lt hi).ne _ _

/-- **When `sf_unfold_header` stays in its buffer and gives the header line**: blanks are trimmed, or
the header line fits, or there is no blank in the part of it that fits. -/
theorem sfUnfoldHeader_correct_iff (inbuf : List Byte) {outbufSize : ℕ} (hpos : 1 ≤ outbufSize)
    (trimSpaces : Bool) :
    ((∀ p ∈ (sfUnfoldHeader inbuf outbufSize trimSpaces).stores, p.1 < outbufSize) ∧
      (sfUnfoldHeader inbuf outbufSize trimSpaces).outputBytes ≤ outbufSize ∧
      ((logicalLine trimSpaces inbuf).length < outbufSize → ∀ outbuf,
        (sfUnfoldHeader inbuf outbufSize trimSpaces).output outbuf =
          logicalLine trimSpaces inbuf)) ↔
    (trimSpaces = true ∨ (logicalLine trimSpaces inbuf).length < outbufSize ∨
      ∀ c ∈ (logicalLine trimSpaces inbuf).take outbufSize, isBlank c = false) := by
  obtain ⟨spaces, hcall⟩ := sfUnfoldHeader_eq inbuf outbufSize trimSpaces
  have htrim : trimSpaces = true → ∀ c ∈ (logicalLine trimSpaces inbuf).take outbufSize,
      isBlank c = false := by
    rintro rfl c hc
    exact logicalLine_trim inbuf c (List.mem_of_mem_take hc)
  rw [hcall]
  generalize logicalLine trimSpaces inbuf = t at htrim
  dsimp only
  rw [forall_mem_stores]
  have hle := chars_upTo_le outbufSize t
  constructor
  · rintro ⟨⟨hlength, hnul⟩, -, -⟩
    by_cases hlt : chars (upTo outbufSize t) < outbufSize
    · rw [if_pos hlt, upTo_of_chars_lt hlt] at hnul
      exact Or.inr (Or.inl hnul)
    · have hk : chars (upTo outbufSize t) = outbufSize := le_antisymm hle (Nat.le_of_not_lt hlt)
      exact Or.inr (Or.inr (isBlank_of_length_le hk hlength))
  · intro h
    have hcases : t.length < outbufSize ∨ ∀ c ∈ t.take outbufSize, isBlank c = false := by
      rcases h with h | h
      · exact Or.inr (htrim h)
      · exact h
    have hlength : (upTo outbufSize t).length ≤ outbufSize := by
      rcases hcases with hlt | hblank
      · exact (upTo_isPrefix outbufSize t).length_le.trans hlt.le
      · rw [upTo_of_take hblank]
        exact List.length_take_le outbufSize t
    refine ⟨⟨hlength, ?_⟩, hlength, fun hlt => output_of_length_lt hlt⟩
    by_cases hlt : chars (upTo outbufSize t) < outbufSize
    · rw [if_pos hlt]
      rcases hcases with hshort | hblank
      · exact (upTo_isPrefix outbufSize t).length_le.trans_lt hshort
      · have hall : (upTo outbufSize t).length = chars (upTo outbufSize t) := by
          refine (List.countP_eq_length.2 fun c hc => ?_).symm
          rw [upTo_of_take hblank] at hc
          simpa using hblank c hc
        exact hall.trans_lt hlt
    · rw [if_neg hlt]
      exact Nat.sub_lt hpos Nat.one_pos

/-- A folded line in a buffer of three bytes. -/
theorem sfUnfoldHeader_correct_iff_folded :
    (sfUnfoldHeader [0x61, cr, lf, 0x20, 0x62, lf] 3 false).output (fun _ => 0) = [0x61, 0x62] := by
  have h := (sfUnfoldHeader_correct_iff [0x61, cr, lf, 0x20, 0x62, lf] (by decide : 1 ≤ 3)
    false).2 (Or.inr (Or.inl (by decide)))
  exact h.2.2 (by decide) _

/-- Two blanks do not stop at a buffer of one byte. -/
theorem sfUnfoldHeader_overflow :
    (1, 0x20) ∈ (sfUnfoldHeader [0x20, 0x20] 1 false).stores ∧
    (sfUnfoldHeader [0x20, 0x20] 1 false).outputBytes = 2 := by
  decide

end Snort.Unfold
