import Snort.Pattern.Model

/-!
# Content strings: `ParsePattern`

A rule is the text of the option, without its `NUL`.  `tmp_buf` has `MAX_PATTERN_SIZE` places; writing
behind them is `outOfBounds`.

* `Piece`: a part of a content string, and the bytes it stands for;
* `parseLoop_piece`, `parseLoop_pieces`: the parser reads pieces;
* `parseLoop_inBounds`: it stays within its buffer;
* **`parsePattern_pieces`**: every way of writing a byte string is read as that byte string.
-/

namespace Snort.Pattern

open Mstring

def MAX_PATTERN_SIZE : ℕ := 2048

/-- The texts of `ParseError`. -/
inductive ContentError
  /-- `Content data needs to be enclosed in quotation marks (")!` -/
  | notQuoted
  /-- `Bad data (possibly due to missing semicolon) after trailing double quote.` -/
  | badData
  /-- `Bad pattern length!` -/
  | badLength
  /-- `ParsePattern() dummy buffer overflow, make a smaller pattern please! (Max size = %d)` -/
  | overflow
  /-- `Content hexmode argument has invalid number of hex digits.  The argument '%s' must contain a full
  even byte string.` -/
  | oddHex
  /-- `Bad escape sequence starting with "%s".` -/
  | badEscape
  /-- `Non-escaped '"' character!` -/
  | bareQuote
  /-- `What is this "%c"(0x%X) doing in your binary buffer?  Valid hex values only please! (0x0 - 0xF)
  Position: %d` -/
  | notHex
  /-- `Character value out of range, try a binary buffer.` -/
  | outOfRange
  /-- `Backslash escape is not completed.` -/
  | openEscape
  /-- `Hexmode is not completed.` -/
  | openHex
  deriving DecidableEq

/-- The parser stops with a message, or writes outside of `tmp_buf`. -/
inductive Failure
  | parseError (error : ContentError)
  | outOfBounds
  deriving DecidableEq

/-! ### Characters -/

def isspace (c : Byte) : Bool := c.toNat = 32 || (9 ≤ c.toNat && c.toNat ≤ 13)

def isxdigit (c : Byte) : Bool :=
  (48 ≤ c.toNat && c.toNat ≤ 57) || (65 ≤ c.toNat && c.toNat ≤ 70) || (97 ≤ c.toNat && c.toNat ≤ 102)

/-- The value of a hex digit. -/
def digitValue (c : Byte) : ℕ :=
  if c.toNat ≤ 57 then c.toNat - 48 else if c.toNat ≤ 70 then c.toNat - 55 else c.toNat - 87

/-- `(u_char) strtol(hex_buf, NULL, 16) & 0xFF`. -/
def strtol16 (hi lo : Byte) : Byte := BitVec.ofNat 8 (digitValue hi * 16 + digitValue lo)

def bar : Byte := 124
def backslash : Byte := 92
def quote : Byte := 34
def blank : Byte := 32

/-- `strchr("\\\":;", c) != NULL`. -/
def isEscapable (c : Byte) : Bool := c = backslash || c = quote || c = 58 || c = 59

/-! ### The loop -/

/-- The variables of the loop; `dummy_size` is the length of `tmpBuf`, and `hexDigit` is `hex_buf[0]`. -/
structure ParseState where
  tmpBuf : List Byte
  hexmode : Bool
  hexsize : ℕ
  pending : Bool
  hexDigit : Byte
  literal : Bool

def ParseState.init : ParseState := ⟨[], false, 0, false, 48, false⟩

/-- `tmp_buf[dummy_size] = b; dummy_size++`. -/
def ParseState.store (st : ParseState) (b : Byte) : Except Failure ParseState :=
  if st.tmpBuf.length < MAX_PATTERN_SIZE then .ok { st with tmpBuf := st.tmpBuf ++ [b] }
  else .error .outOfBounds

def fail {α : Type*} (error : ContentError) : Except Failure α := .error (.parseError error)

/-- `case '|'`. -/
def parseBar (st : ParseState) : Except Failure ParseState :=
  if st.literal = false then
    if st.hexmode = false then .ok { st with hexmode := true, hexsize := 0 }
    else if st.hexsize = 0 ∨ st.hexsize % 2 ≠ 0 then fail .oddHex
    else .ok { st with hexmode := false, pending := false }
  else { st with literal := false }.store bar

/-- `case '\\'`; `next` is `idx[1]`. -/
def parseBackslash (next : Option Byte) (st : ParseState) : Except Failure ParseState :=
  if st.literal = false then
    if next.any fun c => !isEscapable c then fail .badEscape
    else .ok { st with literal := true }
  else { st with literal := false }.store backslash

/-- `default`.  `dummy_idx < dummy_end` holds of every character in front of `end_ptr`. -/
def parseDefault (c : Byte) (st : ParseState) : Except Failure ParseState :=
  if st.hexmode then
    if isxdigit c then
      if st.pending = false then .ok { st with hexsize := st.hexsize + 1, hexDigit := c, pending := true }
      else { st with hexsize := st.hexsize + 1, pending := false }.store (strtol16 st.hexDigit c)
    else if c ≠ blank then fail .notHex
    else .ok st
  else if 0x1F ≤ c.toNat ∧ c.toNat ≤ 0x7E then { st with literal := false }.store c
  else if st.literal then { st with literal := false }.store c
  else fail .outOfRange

/-- The `switch`. -/
def parseChar (c : Byte) (next : Option Byte) (st : ParseState) : Except Failure ParseState :=
  if c = bar then parseBar st
  else if c = backslash then parseBackslash next st
  else if c = quote ∧ st.literal = false then fail .bareQuote
  else parseDefault c st

/-- `while(idx < end_ptr)`. -/
def parseLoop : List Byte → ParseState → Except Failure ParseState
  | [], st => .ok st
  | c :: rest, st => do
    if MAX_PATTERN_SIZE - 1 ≤ st.tmpBuf.length then fail .overflow
    else
      let st ← parseChar c rest.head? st
      parseLoop rest st

/-! ### The function -/

/-- `strrchr`: what stands before and behind the last quote. -/
def splitLast (q : Byte) : List Byte → Option (List Byte × List Byte)
  | [] => none
  | c :: s =>
    match splitLast q s with
    | some (before, behind) => some (c :: before, behind)
    | none => if c = q then some ([], s) else none

/-- What `ParsePattern` sets in the pattern data, besides the tables of `make_precomp`. -/
structure Content where
  patternBuf : List Byte
  exceptionFlag : Bool
  patternMaxJumpSize : ℕ
  deriving DecidableEq

/-- From the opening quote on. -/
def parseQuoted (exceptionFlag : Bool) : List Byte → Except Failure Content
  | [] => fail .notQuoted
  | c :: rule =>
    if c ≠ quote then fail .notQuoted
    else
      match splitLast quote rule with
      | none => fail .notQuoted
      | some (text, behind) =>
        if (behind.dropWhile isspace).length ≠ 0 then fail .badData
        else if text.length = 0 then fail .badLength
        else do
          let st ← parseLoop text ParseState.init
          if st.literal then fail .openEscape
          else if st.hexmode then fail .openHex
          else return ⟨st.tmpBuf, exceptionFlag, getMaxJumpSize st.tmpBuf⟩

/-- `ParsePattern`. -/
def parsePattern (rule : List Byte) : Except Failure Content :=
  match rule.dropWhile isspace with
  | c :: rule =>
    if c = 33 then parseQuoted true (rule.dropWhile isspace) else parseQuoted false (c :: rule)
  | [] => parseQuoted false []

/-! ## Content strings express every pattern -/

open Mstring

/-! ### Writing bytes -/

/-- A byte in a group: two hex digits, with blanks before each. -/
structure HexByte where
  before : ℕ
  hi : Byte
  between : ℕ
  lo : Byte
  isHi : isxdigit hi
  isLo : isxdigit lo

def HexByte.text (b : HexByte) : List Byte :=
  List.replicate b.before blank ++ b.hi :: (List.replicate b.between blank ++ [b.lo])

def HexByte.value (b : HexByte) : Byte := strtol16 b.hi b.lo

/-- A printable character, one with a backslash, or a group of bytes in hex that may end with blanks. -/
inductive Piece
  | plain (c : Byte) (printable : 0x1F ≤ c.toNat ∧ c.toNat ≤ 0x7E) (notBar : c ≠ bar)
      (notBackslash : c ≠ backslash) (notQuote : c ≠ quote)
  | escaped (c : Byte) (escapable : isEscapable c)
  | group (first : HexByte) (more : List HexByte) (after : ℕ)

namespace Piece

def text : Piece → List Byte
  | plain c _ _ _ _ => [c]
  | escaped c _ => [backslash, c]
  | group first more after =>
    bar :: ((first :: more).flatMap HexByte.text ++ (List.replicate after blank ++ [bar]))

def bytes : Piece → List Byte
  | plain c _ _ _ _ => [c]
  | escaped c _ => [c]
  | group first more _ => (first :: more).map HexByte.value

end Piece

/-! ### Reading pieces -/

/-- Between two pieces. -/
structure Neutral (st : ParseState) : Prop where
  hexmode : st.hexmode = false
  pending : st.pending = false
  literal : st.literal = false

/-- In a group, between two bytes. -/
structure InGroup (st : ParseState) (n : ℕ) : Prop where
  hexmode : st.hexmode = true
  pending : st.pending = false
  literal : st.literal = false
  hexsize : st.hexsize = 2 * n

section Reading

variable {st : ParseState} {c : Byte} {rest : List Byte} {n : ℕ}

/-- One character, while there is room. -/
theorem parseLoop_cons {st' : ParseState} (hchar : parseChar c rest.head? st = .ok st')
    (hroom : st.tmpBuf.length + 2 ≤ MAX_PATTERN_SIZE) : parseLoop (c :: rest) st = parseLoop rest st' := by
  rw [parseLoop, if_neg (by omega), hchar]
  rfl

theorem store_eq {b : Byte} (hroom : st.tmpBuf.length + 2 ≤ MAX_PATTERN_SIZE) :
    st.store b = .ok { st with tmpBuf := st.tmpBuf ++ [b] } :=
  if_pos (by omega)

theorem parseChar_default {next : Option Byte} (hbar : c ≠ bar) (hbackslash : c ≠ backslash)
    (hquote : c = quote → st.literal = true) : parseChar c next st = parseDefault c st := by
  unfold parseChar
  rw [if_neg hbar, if_neg hbackslash, if_neg]
  rintro ⟨hc, hlit⟩
  exact absurd (hlit.symm.trans (hquote hc)) Bool.false_ne_true

theorem isxdigit_ne (h : isxdigit c = true) : c ≠ bar ∧ c ≠ backslash ∧ c ≠ quote := by
  refine ⟨?_, ?_, ?_⟩ <;> rintro rfl <;> exact absurd h (by decide)

/-- A character behind a backslash. -/
theorem parseChar_escaped {next : Option Byte} (hhex : st.hexmode = false) (hc : isEscapable c = true) :
    parseChar c next { st with literal := true } = ParseState.store { st with literal := false } c := by
  unfold isEscapable at hc
  simp only [Bool.or_eq_true, decide_eq_true_eq] at hc
  unfold parseChar parseBackslash parseDefault
  obtain ((rfl | rfl) | rfl) | rfl := hc
  · rw [if_neg (by decide), if_pos rfl, if_neg Bool.noConfusion]
  all_goals
    rw [if_neg (by decide), if_neg (by decide), if_neg fun h => Bool.noConfusion h.2,
      if_neg (Bool.eq_false_iff.1 hhex), if_pos (by decide)]

/-- Blanks in a group. -/
theorem parseLoop_blanks (hhex : st.hexmode = true) (hroom : st.tmpBuf.length + 2 ≤ MAX_PATTERN_SIZE) (k : ℕ) :
    parseLoop (List.replicate k blank ++ rest) st = parseLoop rest st := by
  have hdefault : parseDefault blank st = .ok st := by
    unfold parseDefault
    rw [if_pos hhex, if_neg (by decide), if_neg (by decide)]
  induction k with
  | zero => rfl
  | succ k ih =>
    have hchar : parseChar blank (List.replicate k blank ++ rest).head? st = .ok st :=
      (parseChar_default (by decide) (by decide) fun h => absurd h (by decide)).trans hdefault
    rw [List.replicate_succ, List.cons_append, parseLoop_cons hchar hroom, ih]

/-- A hex digit in a group. -/
theorem parseChar_digit {next : Option Byte} (hhex : st.hexmode = true) (hdigit : isxdigit c = true) :
    parseChar c next st =
      if st.pending = false then .ok { st with hexsize := st.hexsize + 1, hexDigit := c, pending := true }
      else { st with hexsize := st.hexsize + 1, pending := false }.store (strtol16 st.hexDigit c) := by
  obtain ⟨hbar, hbackslash, hquote⟩ := isxdigit_ne hdigit
  rw [parseChar_default hbar hbackslash fun h => absurd h hquote, parseDefault, if_pos hhex, if_pos hdigit]

variable (rest) in
/-- A byte in a group. -/
theorem parseLoop_hexByte (b : HexByte) (h : InGroup st n) (hroom : st.tmpBuf.length + 2 ≤ MAX_PATTERN_SIZE) :
    ∃ st', parseLoop (b.text ++ rest) st = parseLoop rest st' ∧ InGroup st' (n + 1) ∧
      st'.tmpBuf = st.tmpBuf ++ [b.value] := by
  refine ⟨{ st with hexsize := st.hexsize + 2, hexDigit := b.hi, tmpBuf := st.tmpBuf ++ [b.value] }, ?_,
    ⟨h.hexmode, h.pending, h.literal, ?_⟩, rfl⟩
  · -- behind the first digit
    have hhi : parseLoop (b.hi :: (List.replicate b.between blank ++ b.lo :: rest)) st =
        parseLoop (List.replicate b.between blank ++ b.lo :: rest)
          { st with hexsize := st.hexsize + 1, hexDigit := b.hi, pending := true } :=
      parseLoop_cons ((parseChar_digit h.hexmode b.isHi).trans (if_pos h.pending)) hroom
    have hlo : parseChar b.lo rest.head?
          { st with hexsize := st.hexsize + 1, hexDigit := b.hi, pending := true } =
        .ok { st with hexsize := st.hexsize + 2, hexDigit := b.hi, tmpBuf := st.tmpBuf ++ [b.value] } := by
      have hdigit := @parseChar_digit { st with hexsize := st.hexsize + 1, hexDigit := b.hi, pending := true }
        b.lo rest.head? h.hexmode b.isLo
      have hstore : ParseState.store { st with hexsize := st.hexsize + 2, hexDigit := b.hi } b.value = .ok
          { st with hexsize := st.hexsize + 2, hexDigit := b.hi, tmpBuf := st.tmpBuf ++ [b.value] } :=
        store_eq hroom
      rw [hdigit, if_neg Bool.noConfusion, ← hstore, ← h.pending]
      rfl
    have hblanks := @parseLoop_blanks { st with hexsize := st.hexsize + 1, hexDigit := b.hi, pending := true }
      (b.lo :: rest) h.hexmode hroom b.between
    unfold HexByte.text
    rw [List.append_assoc, List.cons_append, List.append_assoc, List.singleton_append,
      parseLoop_blanks h.hexmode hroom, hhi, hblanks]
    exact parseLoop_cons hlo hroom
  · show st.hexsize + 2 = 2 * (n + 1)
    rw [h.hexsize]
    ring

variable (rest) in
/-- The bytes of a group. -/
theorem parseLoop_hexBytes (bs : List HexByte) (h : InGroup st n)
    (hroom : st.tmpBuf.length + bs.length + 2 ≤ MAX_PATTERN_SIZE) :
    ∃ st', parseLoop (bs.flatMap HexByte.text ++ rest) st = parseLoop rest st' ∧ InGroup st' (n + bs.length) ∧
      st'.tmpBuf = st.tmpBuf ++ bs.map HexByte.value := by
  induction bs generalizing st n with
  | nil => exact ⟨st, rfl, h, (List.append_nil _).symm⟩
  | cons b bs ih =>
    rw [List.length_cons] at hroom
    obtain ⟨st₁, hrun₁, h₁, hbuf₁⟩ := parseLoop_hexByte (bs.flatMap HexByte.text ++ rest) b h (by omega)
    obtain ⟨st₂, hrun₂, h₂, hbuf₂⟩ := ih h₁ (by rw [hbuf₁, List.length_append, List.length_singleton]; omega)
    refine ⟨st₂, ?_, ?_, ?_⟩
    · rw [List.flatMap_cons, List.append_assoc, hrun₁, hrun₂]
    · rw [List.length_cons, ← Nat.add_assoc, Nat.add_right_comm]
      exact h₂
    · rw [hbuf₂, hbuf₁, List.append_assoc]
      rfl

variable (rest) in
/-- **A piece is read** from a neutral state to a neutral state. -/
theorem parseLoop_piece (p : Piece) (h : Neutral st)
    (hroom : st.tmpBuf.length + p.bytes.length + 2 ≤ MAX_PATTERN_SIZE) :
    ∃ st', parseLoop (p.text ++ rest) st = parseLoop rest st' ∧ Neutral st' ∧
      st'.tmpBuf = st.tmpBuf ++ p.bytes := by
  cases p with
  | plain c printable notBar notBackslash notQuote =>
    have hroom' : st.tmpBuf.length + 2 ≤ MAX_PATTERN_SIZE := Nat.le_of_succ_le hroom
    refine ⟨{ st with tmpBuf := st.tmpBuf ++ [c] }, parseLoop_cons ?_ hroom',
      ⟨h.hexmode, h.pending, h.literal⟩, rfl⟩
    have hstore : ParseState.store { st with literal := false } c = .ok { st with tmpBuf := st.tmpBuf ++ [c] } := by
      rw [← h.literal]
      exact store_eq hroom'
    rw [parseChar_default notBar notBackslash fun hc => absurd hc notQuote, parseDefault,
      if_neg (Bool.eq_false_iff.1 h.hexmode), if_pos printable, hstore]
  | escaped c escapable =>
    have hroom' : st.tmpBuf.length + 2 ≤ MAX_PATTERN_SIZE := Nat.le_of_succ_le hroom
    refine ⟨{ st with tmpBuf := st.tmpBuf ++ [c] }, ?_, ⟨h.hexmode, h.pending, h.literal⟩, rfl⟩
    have hstore : ParseState.store { st with literal := false } c = .ok { st with tmpBuf := st.tmpBuf ++ [c] } := by
      rw [← h.literal]
      exact store_eq hroom'
    have hescape : parseChar backslash (some c) st = .ok { st with literal := true } := by
      unfold parseChar parseBackslash
      rw [if_neg (by decide), if_pos rfl, if_pos h.literal, Option.any_some, escapable, if_neg (by decide)]
    have hchar : parseChar c rest.head? { st with literal := true } = .ok { st with tmpBuf := st.tmpBuf ++ [c] } := by
      rw [← hstore]
      exact parseChar_escaped h.hexmode escapable
    rw [Piece.text, List.cons_append, parseLoop_cons hescape hroom']
    exact parseLoop_cons hchar hroom'
  | group first more after =>
    have hbytes : (Piece.group first more after).bytes.length = (first :: more).length := List.length_map _
    rw [hbytes] at hroom
    have hroom' : st.tmpBuf.length + 2 ≤ MAX_PATTERN_SIZE := by omega
    have hopen : ∀ next, parseChar bar next st = .ok { st with hexmode := true, hexsize := 0 } := by
      intro next
      unfold parseChar parseBar
      rw [if_pos rfl, if_pos h.literal, if_pos h.hexmode]
    have hstart : InGroup { st with hexmode := true, hexsize := 0 } 0 := ⟨rfl, h.pending, h.literal, rfl⟩
    obtain ⟨st₁, hrun, hgroup, hbuf⟩ :=
      parseLoop_hexBytes (List.replicate after blank ++ bar :: rest) (first :: more) hstart hroom
    have hroom₁ : st₁.tmpBuf.length + 2 ≤ MAX_PATTERN_SIZE := by
      rw [hbuf, List.length_append, List.length_map]
      exact hroom
    have hclose : parseChar bar rest.head? st₁ = .ok { st₁ with hexmode := false, pending := false } := by
      have hsize := hgroup.hexsize
      rw [List.length_cons] at hsize
      unfold parseChar parseBar
      rw [if_pos rfl, if_pos hgroup.literal, if_neg (Bool.not_eq_false _ ▸ hgroup.hexmode), if_neg]
      omega
    refine ⟨{ st₁ with hexmode := false, pending := false }, ?_, ⟨rfl, rfl, hgroup.literal⟩, hbuf⟩
    rw [Piece.text, List.cons_append, parseLoop_cons (hopen _) hroom', List.append_assoc, List.append_assoc,
      List.singleton_append, hrun, parseLoop_blanks hgroup.hexmode hroom₁, parseLoop_cons hclose hroom₁]

/-- **Pieces are read** one after the other. -/
theorem parseLoop_pieces (ps : List Piece) (h : Neutral st)
    (hroom : st.tmpBuf.length + (ps.flatMap Piece.bytes).length + 2 ≤ MAX_PATTERN_SIZE) :
    ∃ st', parseLoop (ps.flatMap Piece.text) st = .ok st' ∧ Neutral st' ∧
      st'.tmpBuf = st.tmpBuf ++ ps.flatMap Piece.bytes := by
  induction ps generalizing st with
  | nil => exact ⟨st, rfl, h, (List.append_nil _).symm⟩
  | cons p ps ih =>
    rw [List.flatMap_cons, List.length_append] at hroom
    obtain ⟨st₁, hrun₁, h₁, hbuf₁⟩ := parseLoop_piece (ps.flatMap Piece.text) p h (by omega)
    obtain ⟨st₂, hrun₂, h₂, hbuf₂⟩ := ih h₁ (by rw [hbuf₁, List.length_append]; omega)
    refine ⟨st₂, ?_, h₂, ?_⟩
    · rw [List.flatMap_cons, hrun₁, hrun₂]
    · rw [hbuf₂, hbuf₁, List.append_assoc, List.flatMap_cons]

end Reading

/-! ### The buffer of the parser -/

section Bounds

variable {st : ParseState}

theorem ok_inBounds {α : Type*} (a : α) : (.ok a : Except Failure α) ≠ .error .outOfBounds := by simp

theorem fail_inBounds {α : Type*} (e : ContentError) : (fail e : Except Failure α) ≠ .error .outOfBounds := by
  simp [fail]

theorem store_inBounds {b : Byte} (hroom : st.tmpBuf.length + 1 < MAX_PATTERN_SIZE) :
    st.store b ≠ .error .outOfBounds := by
  rw [ParseState.store, if_pos (by omega)]
  exact ok_inBounds _

variable (st) in
/-- Each character writes at most one byte. -/
theorem parseChar_inBounds (c : Byte) (next : Option Byte) (hroom : st.tmpBuf.length + 1 < MAX_PATTERN_SIZE) :
    parseChar c next st ≠ .error .outOfBounds := by
  unfold parseChar parseBar parseBackslash parseDefault
  split_ifs <;> first | exact ok_inBounds _ | exact fail_inBounds _ | exact store_inBounds hroom

/-- The guard at the top of the loop is in front of every byte that is written. -/
theorem parseLoop_inBounds (text : List Byte) (st : ParseState) : parseLoop text st ≠ .error .outOfBounds := by
  induction text generalizing st with
  | nil => exact ok_inBounds st
  | cons c rest ih =>
    rw [parseLoop]
    split_ifs with hfull
    · exact fail_inBounds _
    · have hchar := parseChar_inBounds st c rest.head? (by omega)
      cases hrun : parseChar c rest.head? st with
      | error e =>
        rw [hrun] at hchar
        exact hchar
      | ok st' => exact ih st'

theorem parseQuoted_inBounds (exceptionFlag : Bool) (rule : List Byte) :
    parseQuoted exceptionFlag rule ≠ .error .outOfBounds := by
  cases rule with
  | nil => exact fail_inBounds _
  | cons c rule =>
    rw [parseQuoted]
    split_ifs with hquote
    · exact fail_inBounds _
    · cases splitLast quote rule with
      | none => exact fail_inBounds _
      | some parts =>
        dsimp only
        split_ifs
        · exact fail_inBounds _
        · exact fail_inBounds _
        · have hloop := parseLoop_inBounds parts.1 ParseState.init
          cases hrun : parseLoop parts.1 ParseState.init with
          | error e =>
            rw [hrun] at hloop
            exact fun h => hloop (congrArg _ (Except.error.inj h))
          | ok st =>
            show (if st.literal then _ else _) ≠ _
            split_ifs
            · exact fail_inBounds _
            · exact fail_inBounds _
            · exact ok_inBounds _

/-- **The parser stays within its buffer.** -/
theorem parsePattern_inBounds (rule : List Byte) : parsePattern rule ≠ .error .outOfBounds := by
  unfold parsePattern
  split
  · split_ifs
    · exact parseQuoted_inBounds true _
    · exact parseQuoted_inBounds false _
  · exact parseQuoted_inBounds false _

end Bounds

/-! ### Content strings -/

theorem splitLast_append {q : Byte} {behind : List Byte} (h : q ∉ behind) (text : List Byte) :
    splitLast q (text ++ q :: behind) = some (text, behind) := by
  have hnone : ∀ s : List Byte, q ∉ s → splitLast q s = none := by
    intro s hs
    induction s with
    | nil => rfl
    | cons c s ih =>
      rw [List.mem_cons, not_or] at hs
      rw [splitLast, ih hs.2]
      exact if_neg (Ne.symm hs.1)
  induction text with
  | nil =>
    rw [List.nil_append, splitLast, hnone behind h]
    exact if_pos rfl
  | cons c text ih =>
    rw [List.cons_append, splitLast, ih]

theorem dropWhile_blanks {front rest : List Byte} (hfront : ∀ c ∈ front, isspace c = true)
    (hrest : ∀ c, rest.head? = some c → isspace c = false) : (front ++ rest).dropWhile isspace = rest := by
  rw [List.dropWhile_append_of_pos hfront]
  cases rest with
  | nil => rfl
  | cons c rest => rw [List.dropWhile_cons_of_neg (Bool.eq_false_iff.1 (hrest c rfl))]

theorem Piece.text_ne_nil (p : Piece) : p.text ≠ [] := by
  cases p <;> exact List.cons_ne_nil _ _

/-- A quoted string of pieces. -/
theorem parseQuoted_pieces (exceptionFlag : Bool) (ps : List Piece) (back : List Byte)
    (hne : ps.flatMap Piece.bytes ≠ []) (hlen : (ps.flatMap Piece.bytes).length + 2 ≤ MAX_PATTERN_SIZE)
    (hback : ∀ c ∈ back, isspace c = true) :
    parseQuoted exceptionFlag (quote :: (ps.flatMap Piece.text ++ quote :: back)) =
      .ok ⟨ps.flatMap Piece.bytes, exceptionFlag, getMaxJumpSize (ps.flatMap Piece.bytes)⟩ := by
  have hquote : quote ∉ back := fun h => absurd (hback _ h) (by decide)
  have hblank : (back.dropWhile isspace).length = 0 := by
    have hdrop := @dropWhile_blanks back [] hback fun c hc => absurd hc.symm (Option.some_ne_none c)
    rw [List.append_nil] at hdrop
    rw [hdrop, List.length_nil]
  have htext : (ps.flatMap Piece.text).length ≠ 0 := by
    intro h
    rw [List.length_eq_zero_iff, List.flatMap_eq_nil_iff] at h
    cases ps with
    | nil => exact hne rfl
    | cons p ps => exact p.text_ne_nil (h p List.mem_cons_self)
  have hinit : Neutral ParseState.init := ⟨rfl, rfl, rfl⟩
  have hroom : ParseState.init.tmpBuf.length + (ps.flatMap Piece.bytes).length + 2 ≤ MAX_PATTERN_SIZE := by
    rw [ParseState.init, List.length_nil, Nat.zero_add]
    exact hlen
  obtain ⟨st, hrun, hneutral, hbuf⟩ := parseLoop_pieces ps hinit hroom
  rw [parseQuoted, if_neg (not_not.2 rfl), splitLast_append hquote]
  dsimp only
  rw [if_neg (not_not.2 hblank), if_neg htext, hrun]
  show (if st.literal then _ else _) = _
  rw [if_neg (Bool.eq_false_iff.1 hneutral.literal), if_neg (Bool.eq_false_iff.1 hneutral.hexmode), hbuf]
  rfl

/-- **Content strings express every pattern**: a quoted string of pieces, with blanks and a negation around
it, is accepted, and what is stored are the bytes it stands for; and no text makes the parser write outside
of its buffer. -/
theorem parsePattern_pieces (ps : List Piece) (front middle back : List Byte) (rule : List Byte)
    (hne : 1 ≤ (ps.flatMap Piece.bytes).length) (hlen : (ps.flatMap Piece.bytes).length ≤ MAX_PATTERN_SIZE - 2)
    (hfront : ∀ c ∈ front, isspace c = true) (hmiddle : ∀ c ∈ middle, isspace c = true)
    (hback : ∀ c ∈ back, isspace c = true) :
    parsePattern (front ++ quote :: (ps.flatMap Piece.text ++ quote :: back)) =
        .ok ⟨ps.flatMap Piece.bytes, false, getMaxJumpSize (ps.flatMap Piece.bytes)⟩ ∧
      parsePattern (front ++ 33 :: (middle ++ quote :: (ps.flatMap Piece.text ++ quote :: back))) =
        .ok ⟨ps.flatMap Piece.bytes, true, getMaxJumpSize (ps.flatMap Piece.bytes)⟩ ∧
      parsePattern rule ≠ .error .outOfBounds := by
  have hne' : ps.flatMap Piece.bytes ≠ [] := List.ne_nil_of_length_pos hne
  have hlen' : (ps.flatMap Piece.bytes).length + 2 ≤ MAX_PATTERN_SIZE := by
    unfold MAX_PATTERN_SIZE at hlen ⊢
    omega
  refine ⟨?_, ?_, parsePattern_inBounds rule⟩
  · rw [← parseQuoted_pieces false ps back hne' hlen' hback, parsePattern, dropWhile_blanks hfront]
    · rfl
    · rintro c hc
      obtain rfl := Option.some.inj hc
      rfl
  · rw [← parseQuoted_pieces true ps back hne' hlen' hback, parsePattern, dropWhile_blanks hfront]
    · show parseQuoted true ((middle ++ _).dropWhile isspace) = _
      rw [dropWhile_blanks hmiddle]
      rintro c hc
      obtain rfl := Option.some.inj hc
      rfl
    · rintro c hc
      obtain rfl := Option.some.inj hc
      rfl

/-- The first byte is printable, the second one has a backslash, and the third is in a group. -/
theorem parsePattern_pieces_three :
    parsePattern ([] ++ quote :: ([.plain 97 (by decide) (by decide) (by decide) (by decide), .escaped 59 rfl,
        .group ⟨0, 52, 1, 49, rfl, rfl⟩ [] 1].flatMap Piece.text ++ quote :: [])) =
        .ok ⟨[97, 59, 65], false, getMaxJumpSize [97, 59, 65]⟩ ∧
      parsePattern ([] ++ 33 :: ([32] ++ quote :: ([.plain 97 (by decide) (by decide) (by decide) (by decide),
        .escaped 59 rfl, .group ⟨0, 52, 1, 49, rfl, rfl⟩ [] 1].flatMap Piece.text ++ quote :: []))) =
        .ok ⟨[97, 59, 65], true, getMaxJumpSize [97, 59, 65]⟩ ∧
      parsePattern [quote] ≠ .error .outOfBounds :=
  parsePattern_pieces [.plain 97 (by decide) (by decide) (by decide) (by decide), .escaped 59 rfl,
    .group ⟨0, 52, 1, 49, rfl, rfl⟩ [] 1] [] [32] [] [quote] (by decide) (by decide)
    (fun c hc => absurd hc List.not_mem_nil) (by decide) fun c hc => absurd hc List.not_mem_nil

/-- The hex digit of a number. -/
def digitOf (n : ℕ) : Byte := BitVec.ofNat 8 (if n < 10 then 48 + n else 55 + n)

theorem digitOf_spec (b : Byte) : isxdigit (digitOf (b.toNat / 16)) = true ∧
    isxdigit (digitOf (b.toNat % 16)) = true ∧
    strtol16 (digitOf (b.toNat / 16)) (digitOf (b.toNat % 16)) = b := by
  revert b
  decide +kernel

/-- Every byte string can be written. -/
theorem exists_pieces (bytes : List Byte) : ∃ ps : List Piece, ps.flatMap Piece.bytes = bytes := by
  induction bytes with
  | nil => exact ⟨[], rfl⟩
  | cons b bytes ih =>
    obtain ⟨hhi, hlo, hvalue⟩ := digitOf_spec b
    obtain ⟨ps, rfl⟩ := ih
    refine ⟨.group ⟨0, _, 0, _, hhi, hlo⟩ [] 0 :: ps, ?_⟩
    rw [List.flatMap_cons]
    exact congrArg (· :: _) hvalue

end Snort.Pattern
