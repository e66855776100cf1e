import Snort.Jsnorm.Model

/-!
# The arguments of `unescape` are read inside the arrays

In terms of the text: where a call starts and how far its arguments are read.

* `advance`: the words that are looked for, letter by letter, over white space;
* `unescapeSpan`: the arguments of `unescape`, up to the parenthesis that closes them;
* `charCodes`: the numerals of `String.fromCharCode`, and the bytes they stand for;
* `Fits`: a script whose calls end inside it and stay inside the arrays.

* `Dbuf.Grows`: an output behind a character;
* `pnormDecode_returns`: strings are joined inside `decoded_out`;
* `unescapeScanFsm_ascii`: a round of `Unescape_scan_fsm`;
* **`unescapeDecode_ptr`**: where `UnescapeDecode` stops, and when it stays inside the arrays.
-/

namespace Snort.Jsnorm

/-- The indices of the tables: a plain `char` is negative from `0x80` on. -/
def isAscii (b : Byte) : Bool := b.toNat < 0x80

def blank (b : Byte) : Bool := isspace b.toInt

def upper (b : Byte) : Byte := BitVec.ofInt 8 (toupper b.toInt)

/-! ### Words -/

def word (s : String) : List Byte := s.toList.map chr

/-- The calls that `unescape` and its kind are. -/
def unescapeWords : List (List Byte) :=
  [word "UNESCAPE(", word "DECODEURI(", word "DECODEURICOMPONENT("]

def charCodeWord : List Byte := word "STRING.FROMCHARCODE("

/-- The end of the script. -/
def scriptWord : List Byte := word "</SCRIPT>"

def words : List (List Byte) := charCodeWord :: scriptWord :: unescapeWords

/-- What has been met of a word, behind another character.  The end of the script may have something
in front of its last character. -/
def advance (w : List Byte) (b : Byte) : List Byte :=
  if words.any fun v => (w ++ [upper b]).isPrefixOf v then w ++ [upper b]
  else if w = word "</SCRIPT" then w
  else if words.any fun v => [upper b].isPrefixOf v then [upper b]
  else []

/-! ### The arguments of `unescape` -/

/-- The text behind the parenthesis that closes the call, and nothing inside if the text ends before;
nothing at all if there is a byte that is not ASCII before.  A parenthesis that directly follows one that
opens is not counted. -/
def unescapeSpan : ℕ → Bool → List Byte → Option (Option (List Byte))
  | _, _, [] => some none
  | depth, fresh, b :: l =>
    if isAscii b = false then none
    else if blank b then unescapeSpan depth fresh l
    else if b = chr ')' then if depth ≤ 1 then some (some l) else unescapeSpan (depth - 1) false l
    else if b = chr '(' ∧ fresh = false then unescapeSpan (depth + 1) true l
    else unescapeSpan depth false l

/-! ### The arguments of `String.fromCharCode` -/

/-- What a numeral has started with. -/
inductive Radix
  | start
  | zero
  | dec
  | oct
  | hex
  deriving DecidableEq

def isOctDigit (b : Byte) : Bool := 48 ≤ b.toNat && b.toNat < 56 || b.toNat = isOct

def isDecDigit (b : Byte) : Bool := 48 ≤ b.toNat && b.toNat < 58 || b.toNat = isDec

def isHexDigit (b : Byte) : Bool :=
  48 ≤ b.toNat && b.toNat < 58 || 65 ≤ b.toNat && b.toNat < 71 || 97 ≤ b.toNat && b.toNat < 103 ||
    b.toNat = isHex

/-- The radix behind a character of a numeral, and if the character is one of its digits: leading zeros
and the `x` are none. -/
def Radix.step (r : Radix) (b : Byte) : Option (Radix × Bool) :=
  match r with
  | .start => if b = chr '0' then some (.zero, false) else if isDecDigit b then some (.dec, true) else none
  | .zero =>
    if upper b = chr 'X' then some (.hex, false)
    else if isOctDigit b then some (.oct, true)
    else if isDecDigit b then some (.dec, true)
    else none
  | .dec => if isDecDigit b then some (.dec, true) else none
  | .oct => if isOctDigit b then some (.oct, true) else if isDecDigit b then some (.dec, true) else none
  | .hex => if isHexDigit b then some (.hex, true) else none

/-- The flag of the digits. -/
def Radix.flag (r : Radix) : ℕ :=
  match r with
  | .start | .zero => 0
  | .dec => isDec
  | .oct => isOct
  | .hex => isHex

/-- The digits that are copied as they are: eight out of every nine. -/
def rawDigits (digits : List Byte) : List Byte :=
  (List.range (digits.length / 9)).flatMap fun i => (digits.drop (9 * i)).take 8

/-- The digits that are converted. -/
def lastDigits (digits : List Byte) : List Byte := digits.drop (9 * (digits.length / 9))

/-- The byte of a numeral. -/
def charCode (r : Radix) (digits : List Byte) : Byte :=
  BitVec.ofNat 8 (strtoul (if r = .dec then 10 else if r = .oct then 8 else 16) digits)

/-- What has been decoded behind a numeral; nothing if eight digits are to be converted and there is
room. -/
def endNumeral (r : Radix) (digits out : List Byte) : Option (List Byte) :=
  let out := (out ++ rawDigits digits).take decodedOutSize
  if lastDigits digits = [] ∨ out.length = decodedOutSize then some out
  else if (lastDigits digits).length = maxBuf then none
  else some (out ++ [charCode r (lastDigits digits)])

/-- What the numerals stand for and the text that is left: behind the parenthesis, or from the first
character on that has no place between them; nothing inside if the text ends before.  Nothing at all if
there is a byte that is not ASCII, or a numeral that does not fit. -/
def charCodes : Radix → List Byte → List Byte → List Byte → Option (Option (List Byte × List Byte))
  | _, _, _, [] => some none
  | r, digits, out, b :: l =>
    if isAscii b = false then none
    else if blank b then do
      let out ← endNumeral r digits out
      charCodes r [] out l
    else
      match r.step b with
      | some (r, isDigit) => charCodes r (if isDigit then digits ++ [b] else digits) out l
      | none => do
        let out ← endNumeral r digits out
        if b = chr ',' then charCodes .start [] out l
        else if b = chr ')' then some (some (out, l))
        else some (some (out, b :: l))

/-! ### The script -/

/-- A script whose calls end inside it and stay inside the arrays, behind a part of a word. -/
inductive Fits : List Byte → List Byte → Prop
  | nil (w : List Byte) : Fits w []
  | blank {w l : List Byte} {b : Byte} (hb : blank b = true) (hl : Fits w l) : Fits w (b :: l)
  | step {w l : List Byte} {b : Byte} (hb : blank b = false) (hw : advance w b ∉ words)
      (hl : Fits (advance w b) l) : Fits w (b :: l)
  | script {w l : List Byte} {b : Byte} (hb : blank b = false) (hw : advance w b = scriptWord) :
      Fits w (b :: l)
  | unescape {w l rest : List Byte} {b : Byte} (hb : blank b = false) (hw : advance w b ∈ unescapeWords)
      (hspan : unescapeSpan 0 false (b :: l) = some (some rest)) (hl : Fits [] rest) : Fits w (b :: l)
  | charCode {w l out rest : List Byte} {b : Byte} (hb : blank b = false)
      (hw : advance w b = charCodeWord) (hcodes : charCodes .start [] [] l = some (some (out, rest)))
      (hspan : unescapeSpan 0 false out ≠ none) (hl : Fits [] rest) : Fits w (b :: l)

/-! ## The arguments of `unescape` are read inside the arrays -/

open FallThrough

/-! ### The tables -/

theorem total_plusNorm : Total plusNorm := ⟨by decide, by decide, by decide⟩

theorem total_unescapeNorm : Total unescapeNorm :=
  ⟨by decide +kernel, by decide +kernel, by decide +kernel⟩

/-! ### Outputs -/

/-- An output inside its size and its array. -/
structure Dbuf.Within (cap : ℕ) (d : Dbuf) : Prop where
  len : d.len ≤ d.size
  size : d.size ≤ cap

/-- An output behind a character: what is behind the old end is as it was. -/
structure Dbuf.Grows (d d' : Dbuf) : Prop where
  size : d'.size = d.size
  len : d'.len ≤ d.len + 1
  data : ∀ j, d.len < j → d'.data j = d.data j

section Output

variable {cap : ℕ} {d d' : Dbuf}

theorem Dbuf.setLen_eq (d : Dbuf) {n : ℕ} (h : n ≤ d.size) :
    d.setLen n = some { d with len := n } := if_pos h

theorem Dbuf.Grows.refl (d : Dbuf) : d.Grows d := ⟨rfl, Nat.le_succ _, fun _ _ => rfl⟩

theorem Dbuf.put_returns (h : d.Within cap) (c : ℤ) :
    ∃ d', d.put cap c = some d' ∧ d'.Within cap ∧ d.Grows d' := by
  obtain ⟨hlen, hsize⟩ := h
  unfold Dbuf.put
  by_cases hroom : d.len < d.size
  · have hset := Dbuf.setLen_eq
      { d with data := Function.update d.data d.len (BitVec.ofInt 8 c) } (n := d.len + 1) hroom
    rw [if_pos hroom, if_pos (by omega), hset]
    refine ⟨_, rfl, ⟨hroom, hsize⟩, rfl, le_rfl, fun j hj => ?_⟩
    exact Function.update_of_ne (by omega) _ _
  · rw [if_neg hroom, Dbuf.setLen_eq _ hlen]
    exact ⟨_, rfl, ⟨hlen, hsize⟩, Dbuf.Grows.refl d⟩

theorem Dbuf.rewind_returns (h : d.Within cap) (overwrite : Option ℕ) :
    ∃ n, d.rewind overwrite = some { d with len := n } ∧ n ≤ d.len := by
  obtain ⟨hlen, hsize⟩ := h
  cases overwrite with
  | none => exact ⟨d.len, rfl, le_rfl⟩
  | some o =>
    unfold Dbuf.rewind
    dsimp only
    by_cases ho : o < d.len
    · rw [if_pos ho, Dbuf.setLen_eq _ (by omega)]
      exact ⟨o, rfl, ho.le⟩
    · rw [if_neg ho]
      exact ⟨d.len, rfl, le_rfl⟩

/-- The output may have gone back before. -/
theorem Dbuf.Grows.of_rewind {n : ℕ} (hn : n ≤ d.len) (h : Dbuf.Grows { d with len := n } d') :
    d.Grows d' :=
  ⟨h.size, h.len.trans (Nat.succ_le_succ hn), fun j hj => h.data j (hn.trans_lt hj)⟩

end Output

/-! ### Strings that are joined -/

section PNorm

variable {s : PNormState} (js : JSState)

/-- A state between two characters. -/
structure PNormState.Good (s : PNormState) : Prop where
  fsm : s.fsm < plusNorm.length
  fsmOther : s.fsmOther < plusNorm.length
  output : s.output.Within decodedOutSize

theorem writeDecodedPNorm_returns (h : s.Good) (c : ℤ) :
    ∃ s' js', writeDecodedPNorm s c js = some (s', js') ∧ s'.Good ∧ s'.output.size = s.output.size := by
  obtain ⟨d, hput, hwithin, hgrows⟩ := Dbuf.put_returns h.output c
  unfold writeDecodedPNorm
  rw [hput]
  exact ⟨_, _, rfl, ⟨h.fsm, h.fsmOther, hwithin⟩, hgrows.size⟩

theorem pnormQuotes_returns (h : s.Good) (n : ℕ) (c : ℤ) :
    ∃ n' s' js', pnormQuotes s n c js = some (n', s', js') ∧ s'.Good ∧
      s'.output.size = s.output.size := by
  have hwrite : ∀ {t : PNormState} (k : ℕ), t.Good → t.output.size = s.output.size →
      ∃ n' s' js', (do return (k, ← writeDecodedPNorm t c js) : Option (ℕ × PNormState × JSState)) =
        some (n', s', js') ∧ s'.Good ∧ s'.output.size = s.output.size := by
    intro t k ht hsize
    obtain ⟨s', js', hwrite, hgood, hsame⟩ := writeDecodedPNorm_returns js ht c
    rw [hwrite]
    exact ⟨k, s', js', rfl, hgood, hsame.trans hsize⟩
  unfold pnormQuotes
  split_ifs
  · exact hwrite _ ⟨h.fsmOther, h.fsmOther, h.output⟩ rfl
  · exact hwrite _ ⟨h.fsm, h.fsmOther, h.output⟩ rfl
  · dsimp only
    split_ifs
    · obtain ⟨k, hrewind, hk⟩ := Dbuf.rewind_returns h.output s.overwrite
      rw [hrewind]
      exact ⟨_, _, _, rfl, ⟨h.fsm, h.fsmOther, hk.trans h.output.len, h.output.size⟩, rfl⟩
    · exact hwrite _ ⟨h.fsm, h.fsmOther, h.output⟩ rfl
  · exact hwrite _ h rfl

theorem pnormExec_returns (h : s.Good) (a : ActionPNorm) (c : ℤ) :
    ∃ s' js', pnormExec s a c js = some (s', js') ∧ s'.Good ∧ s'.output.size = s.output.size := by
  unfold pnormExec
  cases a with
  | dquotes =>
    obtain ⟨n, s', js', hquotes, hgood, hsize⟩ := pnormQuotes_returns js h s.dQuotes c
    dsimp only
    rw [hquotes]
    exact ⟨_, _, rfl, ⟨hgood.fsm, hgood.fsmOther, hgood.output⟩, hsize⟩
  | squotes =>
    obtain ⟨n, s', js', hquotes, hgood, hsize⟩ := pnormQuotes_returns js h s.sQuotes c
    dsimp only
    rw [hquotes]
    exact ⟨_, _, rfl, ⟨hgood.fsm, hgood.fsmOther, hgood.output⟩, hsize⟩
  | space =>
    dsimp only
    split_ifs
    · obtain ⟨s', js', hwrite, hgood, hsize⟩ := writeDecodedPNorm_returns js h c
      rw [hwrite]
      exact ⟨_, _, rfl, ⟨hgood.fsm, hgood.fsmOther, hgood.output⟩, hsize⟩
    · exact ⟨_, _, rfl, ⟨h.fsm, h.fsmOther, h.output⟩, rfl⟩
  | nop =>
    exact writeDecodedPNorm_returns (s := { s with prevEvent := BitVec.ofInt 8 c, overwrite := none }) js
      ⟨h.fsm, h.fsmOther, h.output⟩ c
  | plus =>
    exact writeDecodedPNorm_returns (s := { s with prevEvent := chr '+' }) js
      ⟨h.fsm, h.fsmOther, h.output⟩ c
  | withinQuotes =>
    exact writeDecodedPNorm_returns (s := { s with prevEvent := BitVec.ofInt 8 c }) js
      ⟨h.fsm, h.fsmOther, h.output⟩ c

theorem pnormScanFsm_returns (h : s.Good) (c : ℤ) :
    ∃ s' js', pnormScanFsm s c js = some (s', js') ∧ s'.Good ∧ s'.output.size = s.output.size := by
  unfold pnormScanFsm
  dsimp only
  obtain ⟨m, hm, -, hfind⟩ := total_plusNorm.find (isChar (if isspace c then 32 else toupper c)) h.fsm
  rw [hfind, Option.bind_eq_bind, Option.bind_some]
  exact pnormExec_returns (s := { s with fsm := m.next, fsmOther := m.other }) js
    ⟨total_plusNorm.next m hm, total_plusNorm.other m hm, h.output⟩ _ _

theorem pnormLoop_returns {srclen : ℕ} (hsrclen : srclen ≤ decodedOutSize) (fuel : ℕ) :
    ∀ {ptr : ℕ} {s : PNormState} (js : JSState), ptr ≤ srclen → srclen < ptr + fuel → s.Good →
      ∃ s' js', pnormLoop srclen fuel ptr s js = some (s', js') ∧ s'.Good ∧
        s'.output.size = s.output.size := by
  induction fuel with
  | zero => exact fun _ hptr hfuel => absurd hfuel (by omega)
  | succ fuel ih =>
    intro ptr s js hle hfuel h
    rw [pnormLoop]
    by_cases hptr : ptr < srclen
    · rw [if_pos hptr, readOut, if_pos (by omega)]
      obtain ⟨s₁, js₁, hscan, h₁, hsize₁⟩ := pnormScanFsm_returns js h (s.output.data ptr).toInt
      obtain ⟨s₂, js₂, hloop, h₂, hsize₂⟩ := ih js₁ (show ptr + 1 ≤ srclen from hptr) (by omega) h₁
      refine ⟨s₂, js₂, ?_, h₂, hsize₂.trans hsize₁⟩
      simp only [Option.bind_eq_bind, Option.bind_some, hscan]
      exact hloop
    · rw [if_neg hptr]
      exact ⟨s, js, rfl, h, rfl⟩

/-- **Strings are joined inside `decoded_out`.** -/
theorem pnormDecode_returns (decodedOut : ℕ → Byte) {srclen dstlen : ℕ}
    (hsrclen : srclen ≤ decodedOutSize) (hdstlen : dstlen ≤ decodedOutSize) :
    ∃ out n js', pnormDecode decodedOut srclen dstlen js = some (out, n, js') ∧ n ≤ dstlen := by
  have hzero : 0 < plusNorm.length := by decide
  obtain ⟨s, js', hloop, hgood, hsize⟩ := pnormLoop_returns hsrclen (srclen + 1)
    (s := ⟨0, 0, 0, 0, 0, 0, none, ⟨decodedOut, dstlen, 0⟩⟩) js (Nat.zero_le _) (by omega)
    ⟨hzero, hzero, Nat.zero_le _, hdstlen⟩
  refine ⟨s.output.data, s.output.len, js', ?_, hgood.output.len.trans_eq hsize⟩
  unfold pnormDecode
  rw [hloop]
  rfl

end PNorm


/-! ### Characters -/

theorem toInt_of_isAscii {b : Byte} (h : isAscii b = true) : b.toInt = b.toNat ∧ b.toNat < 128 := by
  have hlt : b.toNat < 128 := of_decide_eq_true h
  refine ⟨?_, hlt⟩
  rw [BitVec.toInt_eq_toNat_cond]
  exact if_pos (by omega)

theorem toInt_of_not_isAscii {b : Byte} (h : isAscii b = false) : b.toInt < 0 := by
  have hle : ¬b.toNat < 128 := of_decide_eq_false h
  have := b.isLt
  rw [BitVec.toInt_eq_toNat_cond, if_neg (by omega)]
  omega

theorem isspace_of_neg {c : ℤ} (h : c < 0) : isspace c = false := by
  unfold isspace
  rw [decide_eq_false (by omega), Bool.false_and, Bool.false_or, decide_eq_false (by omega)]

/-- Outside of ASCII the index is negative. -/
theorem validChars_of_neg {c : ℤ} (h : c < 0) : validChars (toupper c) = none := by
  unfold toupper validChars
  rw [if_neg (show ¬(97 ≤ c ∧ c ≤ 122) by omega), if_neg (by omega)]

theorem validChars_of_lt {c : ℤ} (hpos : 0 ≤ c) (hlt : c < 256) :
    ∃ v, validChars (toupper c) = some v ∧ v < 8 := by
  have hrange : 0 ≤ toupper c ∧ toupper c < 256 := by
    unfold toupper
    split_ifs <;> omega
  unfold validChars
  rw [if_pos hrange]
  split_ifs <;> exact ⟨_, rfl, by decide⟩

theorem hexLookup_of_lt {c : ℤ} (hpos : 0 ≤ c) (hlt : c < 256) : ∃ h, hexLookup c = some h := by
  unfold hexLookup
  rw [if_pos ⟨hpos, hlt⟩]
  split_ifs <;> exact ⟨_, rfl⟩

/-- A character is in no class that is an event but its own. -/
theorem isIndexed_ev {uc : ℤ} {v n : ℕ} (hv : v < 8) (hn : 8 ≤ n) (h : isIndexed uc v n = true) :
    uc = n := by
  unfold isIndexed isChar at h
  rw [Bool.or_eq_true, Bool.and_eq_true, decide_eq_true_eq, decide_eq_true_eq, decide_eq_true_eq] at h
  obtain h | ⟨-, h⟩ := h
  · exact h.symm
  · have hle : n &&& v ≤ v := Nat.and_le_right
    omega

/-! ### A round of `Unescape_scan_fsm` -/

section Unescape

variable {s : UnescapeState} (unicodeMap : Option (ℕ → ℤ)) (js : JSState)

/-- The parentheses that are open behind an action. -/
def ActionUnsc.parens (a : ActionUnsc) (n : ℕ) : ℕ :=
  match a with
  | .paren => n + 1
  | .quit => n - 1
  | _ => n

/-- What an action returns. -/
def ActionUnsc.ret (a : ActionUnsc) (n : ℕ) : Ret := if a = .quit ∧ n - 1 = 0 then .quit else .ok

/-- What an action does to a state. -/
structure UnescapeState.Goes (s s' : UnescapeState) (n : ℕ) : Prop where
  output : s'.output.Within decodedOutSize
  grows : s.output.Grows s'.output
  fsm : s'.fsm = s.fsm
  parens : s'.parenCount = n

theorem writeDecodedUnescape_returns (h : s.output.Within decodedOutSize) (c : ℤ) :
    ∃ s' js', writeDecodedUnescape s c js = some (s', js') ∧ s.Goes s' s.parenCount := by
  obtain ⟨d, hput, hwithin, hgrows⟩ := Dbuf.put_returns h c
  unfold writeDecodedUnescape
  rw [hput]
  exact ⟨_, _, rfl, hwithin, hgrows, rfl, rfl⟩

theorem shiftHex_returns {c : ℤ} (hpos : 0 ≤ c) (hlt : c < 256) (n : ℤ) : ∃ m, shiftHex n c = some m := by
  obtain ⟨h, hlookup⟩ := hexLookup_of_lt hpos hlt
  unfold shiftHex
  rw [hlookup]
  exact ⟨_, rfl⟩

theorem unescapeConv_returns (h : s.output.Within decodedOutSize) (alert : U16) (toChar : ℤ → ℤ) {c : ℤ}
    (hpos : 0 ≤ c) (hlt : c < 256) :
    ∃ s' js', unescapeConv s alert toChar c js = some (s', js') ∧ s.Goes s' s.parenCount := by
  obtain ⟨n, hshift⟩ := shiftHex_returns hpos hlt s.iNorm
  obtain ⟨k, hrewind, hk⟩ := Dbuf.rewind_returns h s.overwrite
  have hwithin : Dbuf.Within decodedOutSize { s.output with len := k } := ⟨hk.trans h.len, h.size⟩
  obtain ⟨s', js', hwrite, hgoes⟩ := writeDecodedUnescape_returns (s := { s with
    prevAction := .backslash
    alertFlags := s.alertFlags ||| alert
    overwrite := none
    output := { s.output with len := k } }) js hwithin (toChar n)
  unfold unescapeConv
  simp only [hshift, hrewind, Option.bind_eq_bind, Option.bind_some, hwrite]
  exact ⟨_, _, rfl, hgoes.output, hgoes.grows.of_rewind hk, hgoes.fsm, hgoes.parens⟩

/-- The branches of `Unescape_exec` stay inside the arrays. -/
theorem unescapeAct_returns (h : s.output.Within decodedOutSize) (a : ActionUnsc) {c : ℤ} (hpos : 0 ≤ c)
    (hlt : c < 256) :
    ∃ s' js' saves, unescapeAct unicodeMap s a c js = some (s', js', a.ret s.parenCount, saves) ∧
      s.Goes s' (a.parens s.parenCount) := by
  have hconv : ∀ alert toChar, ∃ s' js' saves,
      ((unescapeConv s alert toChar c js).bind fun r => some (r.1, r.2, Ret.ok, true)) =
        some (s', js', Ret.ok, saves) ∧
      s.Goes s' s.parenCount := by
    intro alert toChar
    obtain ⟨s', js', hconv, hgoes⟩ := unescapeConv_returns js h alert toChar hpos hlt
    rw [hconv]
    exact ⟨s', js', true, rfl, hgoes⟩
  have hwrite : ∀ (t : UnescapeState) (saves : Bool), t.output = s.output → t.fsm = s.fsm →
      ∃ s' js', ((writeDecodedUnescape t c js).bind fun r => some (r.1, r.2, Ret.ok, saves)) =
        some (s', js', Ret.ok, saves) ∧
      s.Goes s' t.parenCount := by
    intro t saves hout hfsm
    obtain ⟨s', js', hwrite, hgoes⟩ := writeDecodedUnescape_returns (s := t) js (hout ▸ h) c
    rw [hwrite]
    exact ⟨s', js', rfl, hgoes.output, hout ▸ hgoes.grows, hgoes.fsm.trans hfsm, hgoes.parens⟩
  have hstay : s.Goes s s.parenCount := ⟨h, Dbuf.Grows.refl _, rfl, rfl⟩
  unfold unescapeAct
  cases a with
  | backslash => exact hconv _ _
  | percent => exact hconv _ _
  | ubackslash => exact hconv _ _
  | upercent => exact hconv _ _
  | conv =>
    obtain ⟨n, hshift⟩ := shiftHex_returns hpos hlt s.iNorm
    dsimp only
    rw [hshift]
    obtain ⟨s', js', hrun, hgoes⟩ := hwrite { s with prevAction := .backslash, iNorm := n } true rfl rfl
    exact ⟨s', js', true, hrun, hgoes⟩
  | nop =>
    obtain ⟨s', js', hrun, hgoes⟩ := hwrite
      { s with prevAction := .backslash, iNorm := 0, overwrite := none } true rfl rfl
    exact ⟨s', js', true, hrun, hgoes⟩
  | save =>
    obtain ⟨s', js', hrun, hgoes⟩ := hwrite
      { s with prevAction := .backslash, iNorm := 0, overwrite := some s.output.len } true rfl rfl
    exact ⟨s', js', true, hrun, hgoes⟩
  | saveNop =>
    obtain ⟨s', js', hrun, hgoes⟩ := hwrite { s with prevAction := .backslash, iNorm := 0 } true rfl rfl
    exact ⟨s', js', true, hrun, hgoes⟩
  | unescape =>
    obtain ⟨s', js', hrun, hgoes⟩ := hwrite { s with prevAction := .unescape, iNorm := 0 } true rfl rfl
    exact ⟨s', js', true, hrun, hgoes⟩
  | paren =>
    -- `multiple_levels` apart, the state is the same
    have hsame : ∀ t : UnescapeState, t.output = s.output → t.fsm = s.fsm → t.parenCount = s.parenCount →
        ∃ s' js' saves,
          (if 0 < t.parenCount then
            (writeDecodedUnescape t c js).bind fun r =>
              some ({ r.1 with parenCount := r.1.parenCount + 1 }, r.2, Ret.ok, true)
          else some ({ t with parenCount := t.parenCount + 1 }, js, Ret.ok, true)) =
            some (s', js', Ret.ok, saves) ∧
          s.Goes s' (s.parenCount + 1) := by
      intro t hout hfsm hparens
      split_ifs
      · obtain ⟨s', js', hwrite, hgoes⟩ := writeDecodedUnescape_returns (s := t) js (hout ▸ h) c
        rw [hwrite]
        exact ⟨_, _, true, rfl, hgoes.output, hout ▸ hgoes.grows, hgoes.fsm.trans hfsm,
          congrArg (· + 1) (hgoes.parens.trans hparens)⟩
      · exact ⟨_, _, true, rfl, hout ▸ h, hout ▸ Dbuf.Grows.refl _, hfsm, congrArg (· + 1) hparens⟩
    by_cases hprev : s.prevAction = .unescape
    · simp only [if_pos hprev]
      exact hsame { s with
        prevAction := .backslash, multipleLevels := s.multipleLevels + 1, iNorm := 0 } rfl rfl rfl
    · simp only [if_neg hprev]
      exact hsame { s with iNorm := 0 } rfl rfl rfl
  | quit =>
    dsimp only [ActionUnsc.parens]
    by_cases hzero : s.parenCount - 1 = 0
    · rw [if_pos hzero, ActionUnsc.ret, if_pos ⟨rfl, hzero⟩]
      exact ⟨_, _, true, rfl, h, Dbuf.Grows.refl _, rfl, rfl⟩
    · rw [if_neg hzero, ActionUnsc.ret, if_neg fun hboth => hzero hboth.2]
      obtain ⟨s', js', hrun, hgoes⟩ := hwrite { s with
        prevAction := .backslash, iNorm := 0, overwrite := none, parenCount := s.parenCount - 1 }
        true rfl rfl
      exact ⟨s', js', true, hrun, hgoes⟩
  | space =>
    dsimp only
    split_ifs
    · obtain ⟨s', js', hrun, hgoes⟩ := hwrite { s with iNorm := 0 } false rfl rfl
      exact ⟨s', js', false, hrun, hgoes⟩
    · obtain ⟨s', js', hwrite, hgoes⟩ :=
        writeDecodedUnescape_returns (s := { s with iNorm := 0 }) js h c
      rw [hwrite]
      exact ⟨_, _, true, rfl, hgoes.output, hgoes.grows, hgoes.fsm, hgoes.parens⟩
    · exact ⟨_, _, true, rfl, h, Dbuf.Grows.refl _, rfl, rfl⟩

theorem unescapeExec_returns (h : s.output.Within decodedOutSize) (a : ActionUnsc) {c : ℤ} (hpos : 0 ≤ c)
    (hlt : c < 256) :
    ∃ s' js', unescapeExec unicodeMap s a c js = some (s', js', a.ret s.parenCount) ∧
      s.Goes s' (a.parens s.parenCount) := by
  obtain ⟨s', js', saves, hact, hgoes⟩ := unescapeAct_returns unicodeMap js h a hpos hlt
  unfold unescapeExec
  rw [hact]
  refine ⟨_, _, rfl, ?_⟩
  cases saves
  · exact hgoes
  · exact ⟨hgoes.output, hgoes.grows, hgoes.fsm, hgoes.parens⟩

/-- A state between two characters. -/
def rests (i : ℕ) : Bool := i < U7 && i ≠ U2 && i ≠ U3 && i ≠ U4 && i ≠ U5 && i ≠ U6

theorem rests_lt {i : ℕ} (h : rests i = true) : i < unescapeNorm.length := by
  unfold rests at h
  simp only [Bool.and_eq_true, decide_eq_true_eq] at h
  exact h.1.1.1.1.1.trans (by decide)

/-- The rows for parentheses. -/
theorem unescapeNorm_parens : ∀ m ∈ unescapeNorm, (m.action = .paren ↔ m.event = ev '(') ∧
    (m.action = .quit ↔ m.event = ev ')') ∧ (m.next = U1 ↔ m.action = .paren) ∧ rests m.next = true := by
  decide +kernel

theorem find_close : ∀ i < U7, rests i = true →
    (find unescapeNorm (isIndexed 41 0) i).map (fun m => (m.action, m.next)) = some (.quit, U0) := by
  decide +kernel

theorem find_open : ∀ i < U7, rests i = true →
    (find unescapeNorm (isIndexed 40 0) i).map (fun m => (m.action, m.next)) =
      some (if i = U1 then (.nop, U0) else (.paren, U1)) := by
  decide +kernel

/-- The row that takes an ASCII character, as far as parentheses are concerned. -/
structure Takes (b : Byte) (i : ℕ) (m : JSNorm ActionUnsc) : Prop where
  rests : rests m.next = true
  close : b = chr ')' → m.action = .quit ∧ m.next ≠ U1
  opens : b = chr '(' → i ≠ U1 → m.action = .paren ∧ m.next = U1
  other : b ≠ chr ')' → (b = chr '(' → i = U1) → m.action ≠ .quit ∧ m.action ≠ .paren ∧ m.next ≠ U1


theorem ev_of_toupper {b : Byte} (hb : isAscii b = true) {n : ℕ} (hn : n < 65) (h : toupper b.toInt = n) :
    b = BitVec.ofNat 8 n := by
  obtain ⟨hint, hlt⟩ := toInt_of_isAscii hb
  rw [hint] at h
  unfold toupper at h
  rw [← BitVec.toNat_inj, BitVec.toNat_ofNat, Nat.mod_eq_of_lt (by omega)]
  split_ifs at h <;> omega

theorem find_takes {b : Byte} (hb : isAscii b = true) {i : ℕ} (hi : rests i = true) :
    ∃ v m, validChars (toupper b.toInt) = some v ∧
      find unescapeNorm (isIndexed (toupper b.toInt) v) i = some m ∧ Takes b i m := by
  obtain ⟨hint, hlt⟩ := toInt_of_isAscii hb
  obtain ⟨v, hvalid, hv⟩ := validChars_of_lt (c := b.toInt) (by omega) (by omega)
  obtain ⟨m, hm, htakes, hfind⟩ :=
    total_unescapeNorm.find (isIndexed (toupper b.toInt) v) (rests_lt hi)
  obtain ⟨hparen, hquit, hnext, hrests⟩ := unescapeNorm_parens m hm
  have hi' : i < U7 := by
    unfold rests at hi
    simp only [Bool.and_eq_true, decide_eq_true_eq] at hi
    exact hi.1.1.1.1.1
  -- a row with a character as its event takes that character only
  have hevent : ∀ n, 8 ≤ n → n < 65 → m.event = n → b = BitVec.ofNat 8 n := by
    intro n hle hlt' heq
    rw [heq] at htakes
    obtain hzero | htakes := htakes
    · omega
    · exact ev_of_toupper hb hlt' (isIndexed_ev hv hle htakes)
  refine ⟨v, m, hvalid, hfind, hrests, ?_, ?_, ?_⟩
  · rintro rfl
    have hrow := find_close i hi' hi
    have hzero : v = 0 := (Option.some.inj hvalid).symm
    rw [hzero] at hfind
    rw [show find unescapeNorm (isIndexed 41 0) i = some m from hfind] at hrow
    obtain ⟨haction, hstate⟩ := Prod.mk.inj (Option.some.inj hrow)
    exact ⟨haction, by rw [hstate]; decide⟩
  · rintro rfl hne
    have hrow := find_open i hi' hi
    have hzero : v = 0 := (Option.some.inj hvalid).symm
    rw [hzero] at hfind
    rw [show find unescapeNorm (isIndexed 40 0) i = some m from hfind, if_neg hne] at hrow
    exact Prod.mk.inj (Option.some.inj hrow)
  · intro hclose hopen
    have hnotQuit : m.action ≠ .quit := fun h => hclose (hevent _ (by decide) (by decide) (hquit.1 h))
    have hnotParen : m.action ≠ .paren := by
      intro h
      obtain rfl : b = chr '(' := hevent _ (by decide) (by decide) (hparen.1 h)
      have hrow := find_open i hi' hi
      have hzero : v = 0 := (Option.some.inj hvalid).symm
      rw [hzero] at hfind
      rw [show find unescapeNorm (isIndexed 40 0) i = some m from hfind, if_pos (hopen rfl)] at hrow
      have haction := (Prod.mk.inj (Option.some.inj hrow)).1
      rw [h] at haction
      cases haction
    exact ⟨hnotQuit, hnotParen, fun h => hnotParen (hnext.1 h)⟩

theorem unescapeScanFsm_blank (h : s.output.Within decodedOutSize) {b : Byte} (hb : blank b = true) :
    ∃ s' js', unescapeScanFsm unicodeMap s b.toInt js = some (s', js', .ok) ∧ s.Goes s' s.parenCount := by
  unfold unescapeScanFsm
  dsimp only
  rw [show isspace b.toInt = true from hb, if_pos rfl]
  exact unescapeExec_returns unicodeMap js h .space (by decide) (by decide)

theorem unescapeScanFsm_notAscii {b : Byte} (hb : isAscii b = false) :
    unescapeScanFsm unicodeMap s b.toInt js = none := by
  have hneg := toInt_of_not_isAscii hb
  unfold unescapeScanFsm
  dsimp only
  rw [isspace_of_neg hneg, if_neg Bool.false_ne_true, validChars_of_neg hneg]
  rfl

/-- **A round of `Unescape_scan_fsm`** with an ASCII character. -/
theorem unescapeScanFsm_ascii (h : s.output.Within decodedOutSize) (hi : rests s.fsm = true) {b : Byte}
    (hb : isAscii b = true) (hblank : blank b = false) :
    ∃ m s' js', Takes b s.fsm m ∧
      unescapeScanFsm unicodeMap s b.toInt js = some (s', js', m.action.ret s.parenCount) ∧
      s'.output.Within decodedOutSize ∧ s.output.Grows s'.output ∧ s'.fsm = m.next ∧
      s'.parenCount = m.action.parens s.parenCount := by
  obtain ⟨v, m, hvalid, hfind, htakes⟩ := find_takes hb hi
  obtain ⟨hint, hlt⟩ := toInt_of_isAscii hb
  obtain ⟨s', js', hexec, hgoes⟩ := unescapeExec_returns (s := { s with fsm := m.next }) unicodeMap js h
    m.action (c := b.toInt) (by omega) (by omega)
  refine ⟨m, s', js', htakes, ?_, hgoes.output, hgoes.grows, hgoes.fsm, hgoes.parens⟩
  unfold unescapeScanFsm
  dsimp only
  rw [show isspace b.toInt = false from hblank, if_neg Bool.false_ne_true, hvalid, Option.bind_eq_bind,
    Option.bind_some, hfind, Option.bind_eq_bind, Option.bind_some]
  exact hexec

/-! ### The loop of `UnescapeDecode` -/

/-- Where a call stops: at its last character, or at the end of the source. -/
def stopAt (srclen : ℕ) : Option (List Byte) → ℕ
  | none => srclen
  | some rest => srclen - (rest.length + 1)

/-- The bytes of the source from a place on, as long as only what has been read is written over. -/
def Source (read : (ℕ → Byte) → ℕ → Option Byte) (l : List Byte) (ptr : ℕ) (data : ℕ → Byte) : Prop :=
  ∀ k (hk : k < l.length) data', (∀ j, ptr + k ≤ j → data' j = data j) →
    read data' (ptr + k) = some l[k]

theorem Source.head {read : (ℕ → Byte) → ℕ → Option Byte} {l : List Byte} {b : Byte} {ptr : ℕ}
    {data : ℕ → Byte} (h : Source read (b :: l) ptr data) : read data ptr = some b :=
  h 0 (Nat.succ_pos _) data fun _ _ => rfl

theorem Source.tail {read : (ℕ → Byte) → ℕ → Option Byte} {l : List Byte} {b : Byte} {ptr : ℕ}
    {data data' : ℕ → Byte} (h : Source read (b :: l) ptr data)
    (hdata : ∀ j, ptr < j → data' j = data j) : Source read l (ptr + 1) data' := by
  intro k hk data'' hdata'
  have hread := h (k + 1) (Nat.succ_lt_succ hk) data'' fun j hj => by
    rw [hdata' j (by omega), hdata j (by omega)]
  rw [List.getElem_cons_succ] at hread
  rw [← hread]
  congr 1
  omega

/-- The loop of `UnescapeDecode` stops where the call ends. -/
theorem unescapeLoop_ptr {read : (ℕ → Byte) → ℕ → Option Byte} {srclen : ℕ} {l : List Byte} :
    ∀ {fuel ptr depth : ℕ} {fresh : Bool} {s : UnescapeState} (js : JSState), ptr + l.length = srclen →
      l.length < fuel → Source read l ptr s.output.data → s.output.Within decodedOutSize →
      s.output.len ≤ ptr → rests s.fsm = true → s.parenCount = depth → (s.fsm = U1 ↔ fresh = true) →
      (unescapeLoop unicodeMap read srclen fuel ptr s js).map (·.1) =
          (unescapeSpan depth fresh l).map (stopAt srclen) ∧
        ∀ r, unescapeLoop unicodeMap read srclen fuel ptr s js = some r →
          r.2.1.output.Within decodedOutSize := by
  induction l with
  | nil =>
    intro fuel ptr depth fresh s js hptr hfuel hsource h hlen hi hdepth hfresh
    obtain ⟨fuel, rfl⟩ := Nat.exists_eq_add_of_lt hfuel
    rw [List.length_nil, Nat.add_zero] at hptr
    rw [unescapeLoop, if_neg (by omega), hptr]
    exact ⟨rfl, fun r hr => Option.some.inj hr ▸ h⟩
  | cons b l ih =>
    intro fuel ptr depth fresh s js hptr hfuel hsource h hlen hi hdepth hfresh
    rw [List.length_cons] at hptr hfuel
    obtain ⟨fuel, rfl⟩ := Nat.exists_eq_add_of_le' (show 1 ≤ fuel by omega)
    rw [unescapeLoop, if_pos (by omega), hsource.head, Option.bind_eq_bind, Option.bind_some, unescapeSpan]
    cases hb : isAscii b with
    | false =>
      rw [unescapeScanFsm_notAscii unicodeMap js hb, if_pos rfl]
      exact ⟨rfl, fun _ hr => nomatch hr⟩
    | true =>
      rw [if_neg (by simp)]
      -- the next round
      have hgo : ∀ {s' : UnescapeState} {js' : JSState} {depth' : ℕ} {fresh' : Bool},
          s'.output.Within decodedOutSize → s.output.Grows s'.output → rests s'.fsm = true →
          s'.parenCount = depth' → (s'.fsm = U1 ↔ fresh' = true) →
          ((movePtr srclen (ptr + 1)).bind fun ptr =>
            unescapeLoop unicodeMap read srclen fuel ptr s' js').map (·.1) =
              (unescapeSpan depth' fresh' l).map (stopAt srclen) ∧
          ∀ r, ((movePtr srclen (ptr + 1)).bind fun ptr =>
            unescapeLoop unicodeMap read srclen fuel ptr s' js') = some r →
              r.2.1.output.Within decodedOutSize := by
        intro s' js' depth' fresh' hout hgrows hrests hparens hstate
        rw [movePtr, if_pos (by omega), Option.bind_some]
        exact ih js' (by omega) (by omega)
          (hsource.tail fun j hj => hgrows.data j (by omega)) hout
          (hgrows.len.trans (by omega)) hrests hparens hstate
      cases hblank : blank b with
      | true =>
        obtain ⟨s', js', hscan, hgoes⟩ := unescapeScanFsm_blank unicodeMap js h hblank
        rw [hscan]
        exact hgo hgoes.output hgoes.grows (by rw [hgoes.fsm]; exact hi) (hgoes.parens.trans hdepth)
          (by rw [hgoes.fsm]; exact hfresh)
      | false =>
        obtain ⟨m, s', js', htakes, hscan, hout, hgrows, hfsm, hparens⟩ :=
          unescapeScanFsm_ascii unicodeMap js h hi hb hblank
        rw [hscan, if_neg Bool.false_ne_true]
        have hrests : rests s'.fsm = true := by rw [hfsm]; exact htakes.rests
        by_cases hclose : b = chr ')'
        · obtain ⟨haction, hnext⟩ := htakes.close hclose
          rw [haction] at hparens
          rw [haction, if_pos hclose]
          by_cases hlast : depth ≤ 1
          · have hret : ActionUnsc.quit.ret s.parenCount = .quit := if_pos ⟨rfl, by omega⟩
            rw [if_pos hlast, hret]
            refine ⟨congrArg some ?_, fun r hr => Option.some.inj hr ▸ hout⟩
            show ptr = srclen - (l.length + 1)
            omega
          · have hret : ActionUnsc.quit.ret s.parenCount = .ok := if_neg (by omega)
            rw [if_neg hlast, hret]
            refine hgo hout hgrows hrests (hparens.trans (by rw [← hdepth]; rfl)) ?_
            rw [hfsm]
            exact ⟨fun heq => absurd heq hnext, fun h => absurd h Bool.false_ne_true⟩
        · rw [if_neg hclose]
          by_cases hopen : b = chr '(' ∧ fresh = false
          · obtain ⟨haction, hnext⟩ := htakes.opens hopen.1 fun heq =>
              absurd (hfresh.1 heq) (by rw [hopen.2]; exact Bool.false_ne_true)
            rw [haction] at hparens
            have hret : ActionUnsc.paren.ret s.parenCount = .ok := if_neg fun h => nomatch h.1
            rw [haction, if_pos hopen, hret]
            refine hgo hout hgrows hrests (hparens.trans (by rw [← hdepth]; rfl)) ?_
            rw [hfsm, hnext]
            exact ⟨fun _ => rfl, fun _ => rfl⟩
          · obtain ⟨hquit, hparen, hnext⟩ := htakes.other hclose fun heq => hfresh.2 (by
              cases fresh
              · exact absurd ⟨heq, rfl⟩ hopen
              · rfl)
            have hret : m.action.ret s.parenCount = .ok := if_neg fun h => hquit h.1
            have hsame : m.action.parens s.parenCount = s.parenCount := by
              unfold ActionUnsc.parens
              split
              · exact absurd ‹_› hparen
              · exact absurd ‹_› hquit
              · rfl
            rw [if_neg hopen, hret]
            refine hgo hout hgrows hrests (hparens.trans (hsame.trans hdepth)) ?_
            rw [hfsm]
            exact ⟨fun heq => absurd heq hnext, fun h => absurd h Bool.false_ne_true⟩

/-- **Where `UnescapeDecode` stops**; it leaves the arrays if it comes to a byte that is not ASCII. -/
theorem unescapeDecode_ptr {read : (ℕ → Byte) → ℕ → Option Byte} {srclen ptr : ℕ} {l : List Byte}
    {decodedOut : ℕ → Byte} (hptr : ptr + l.length = srclen) (hsource : Source read l ptr decodedOut) :
    (unescapeDecode unicodeMap read srclen ptr decodedOut js).map (·.1) =
        (unescapeSpan 0 false l).map (stopAt srclen) ∧
      ∀ r, unescapeDecode unicodeMap read srclen ptr decodedOut js = some r →
        r.2.2.1 ≤ decodedOutSize := by
  have hstart : (UnescapeState.start decodedOut).output.Within decodedOutSize :=
    ⟨Nat.zero_le _, le_rfl⟩
  have hfuel : l.length < srclen + 1 := by omega
  have hdepth : (UnescapeState.start decodedOut).parenCount = 0 := rfl
  have hfresh : (UnescapeState.start decodedOut).fsm = U1 ↔ false = true :=
    ⟨fun h => absurd h (show ¬U0 = U1 by decide), fun h => absurd h Bool.false_ne_true⟩
  obtain ⟨hloop, hwithin⟩ := unescapeLoop_ptr unicodeMap js hptr hfuel hsource hstart (Nat.zero_le _) rfl
    hdepth hfresh
  unfold unescapeDecode
  rw [← hloop]
  cases hrun : unescapeLoop unicodeMap read srclen (srclen + 1) ptr (.start decodedOut) js with
  | none => exact ⟨rfl, fun _ hr => nomatch hr⟩
  | some r =>
    obtain ⟨p, s, js₁⟩ := r
    have hout := hwithin _ hrun
    obtain ⟨out, n, js₂, hdecode, hn⟩ := pnormDecode_returns
      (if (checkMixed js₁ s.alertFlags).allowedLevels < s.multipleLevels.toNat then
        { checkMixed js₁ s.alertFlags with
          alerts := (checkMixed js₁ s.alertFlags).alerts ||| alertLevelsExceeded }
      else checkMixed js₁ s.alertFlags) s.output.data (hout.len.trans hout.size) (hout.len.trans hout.size)
    rw [Option.bind_eq_bind, Option.bind_some]
    dsimp only
    rw [hdecode]
    exact ⟨rfl, fun r hr => Option.some.inj hr ▸ hn.trans (hout.len.trans hout.size)⟩

end Unescape

end Snort.Jsnorm
