import Mathlib.Data.List.TakeWhile
import Snort.Jsnorm.CharCode

/-!
# The numerals of `String.fromCharCode`

* `Numeral`: a character code in decimal, octal or hexadecimal, with leading zeros;
* `charCodes_digits`: a numeral is read digit by digit;
* **`sfccLoop_numerals`**: a list of numerals gives its characters, as long as none is longer than the
  buffer.
-/

namespace Snort.Jsnorm

inductive Base
  | dec
  | oct
  | hex
  deriving DecidableEq

def Base.value (base : Base) : ℕ :=
  match base with
  | .dec => 10
  | .oct => 8
  | .hex => 16

/-- The value of digits, as `strtoul` reads them. -/
def digitsValue (base : ℕ) (digits : List Byte) : ℕ :=
  digits.foldl (fun n b => n * base + digitValue b) 0

/-- A character code.  A decimal number that starts with a zero has a digit that is not octal. -/
structure Numeral where
  base : Base
  digits : List Byte
  valid : ∀ b ∈ digits, digitValue b < base.value
  pos : 0 < digitsValue base.value digits
  lt : digitsValue base.value digits < 256
  decimal : base = .dec → digits.head? = some (chr '0') → ∃ b ∈ digits, 8 ≤ digitValue b

def Numeral.code (x : Numeral) : ℕ := digitsValue x.base.value x.digits

/-- A numeral as it is written. -/
def Numeral.text (x : Numeral) : List Byte :=
  match x.base with
  | .dec => x.digits
  | .oct => chr '0' :: x.digits
  | .hex => chr '0' :: chr 'x' :: x.digits

/-- The digits behind a leading zero or `0x`. -/
def Numeral.stored (x : Numeral) : List Byte :=
  if x.base = .dec ∧ x.digits.head? = some (chr '0') then x.digits.tail else x.digits

/-- An argument, with the white space around it. -/
structure Argument where
  before : List Byte
  numeral : Numeral
  after : List Byte
  blank_before : ∀ b ∈ before, isAscii b = true ∧ blank b = true
  blank_after : ∀ b ∈ after, isAscii b = true ∧ blank b = true

def Argument.text (x : Argument) : List Byte := x.before ++ x.numeral.text ++ x.after

/-- Arguments with commas between them. -/
def argumentList : List Argument → List Byte
  | [] => []
  | [x] => x.text
  | x :: y :: l => x.text ++ chr ',' :: argumentList (y :: l)

/-! ### Digits -/

theorem digit_facts : ∀ b : Byte, digitValue b < 16 → isAscii b = true ∧ blank b = false ∧
    Radix.hex.step b = some (.hex, true) := by
  decide +kernel

/-- The radix behind a decimal digit. -/
def Radix.after (r : Radix) (b : Byte) : Radix := if r = .dec ∨ 8 ≤ digitValue b then .dec else .oct

theorem step_decimal : ∀ b : Byte, digitValue b < 10 → ∀ r ∈ [Radix.zero, .oct, .dec],
    r.step b = some (r.after b, true) := by
  decide +kernel

theorem step_start : ∀ b : Byte, digitValue b < 10 → b ≠ chr '0' →
    Radix.start.step b = some (.dec, true) := by
  decide +kernel

theorem step_blank : ∀ b : Byte, b = chr ',' ∨ b = chr ')' → ∀ r ∈ [Radix.start, .zero, .dec, .oct, .hex],
    isAscii b = true ∧ blank b = false ∧ r.step b = none := by
  decide +kernel

section Reading

variable {r r' : Radix} {digits out l : List Byte} {b : Byte}

theorem charCodes_cons (hb : isAscii b = true) (hblank : blank b = false) {isDigit : Bool}
    (hstep : r.step b = some (r', isDigit)) :
    charCodes r digits out (b :: l) = charCodes r' (if isDigit then digits ++ [b] else digits) out l := by
  rw [charCodes, if_neg (by simp [hb]), if_neg (by simp [hblank]), hstep]

/-- A numeral is read digit by digit. -/
theorem charCodes_digits (g : Radix → Byte → Radix) (radices : List Radix) {ds : List Byte}
    (hstep : ∀ r ∈ radices, ∀ b ∈ ds, isAscii b = true ∧ blank b = false ∧
      r.step b = some (g r b, true) ∧ g r b ∈ radices) :
    ∀ {r : Radix} {digits : List Byte}, r ∈ radices →
      charCodes r digits out (ds ++ l) = charCodes (ds.foldl g r) (digits ++ ds) out l := by
  induction ds with
  | nil => exact fun _ => by rw [List.append_nil]; rfl
  | cons b ds ih =>
    intro r digits hr
    obtain ⟨hb, hblank, hr', hmem⟩ := hstep r hr b List.mem_cons_self
    rw [List.cons_append, charCodes_cons hb hblank hr', if_pos rfl,
      ih (fun r hr c hc => hstep r hr c (List.mem_cons_of_mem _ hc)) hmem, List.append_assoc]
    rfl

theorem foldl_after (ds : List Byte) (r : Radix) : ds.foldl Radix.after r =
    if r = .dec ∨ ∃ b ∈ ds, 8 ≤ digitValue b then .dec else if ds = [] then r else .oct := by
  induction ds generalizing r with
  | nil => by_cases hr : r = .dec <;> simp [hr]
  | cons b ds ih =>
    rw [List.foldl_cons, ih]
    unfold Radix.after
    by_cases hr : r = .dec ∨ 8 ≤ digitValue b
    · have hex : r = .dec ∨ ∃ c ∈ b :: ds, 8 ≤ digitValue c :=
        hr.imp_right fun h => ⟨b, List.mem_cons_self, h⟩
      rw [if_pos hr, if_pos (Or.inl rfl), if_pos hex]
    · rw [if_neg hr]
      obtain ⟨hdec, hlt⟩ := not_or.1 hr
      by_cases hds : ∃ c ∈ ds, 8 ≤ digitValue c
      · obtain ⟨c, hc, hle⟩ := hds
        rw [if_pos (Or.inr ⟨c, hc, hle⟩), if_pos (Or.inr ⟨c, List.mem_cons_of_mem _ hc, hle⟩)]
      · have hnone : ¬(r = .dec ∨ ∃ c ∈ b :: ds, 8 ≤ digitValue c) := by
          rintro (h | ⟨c, hc, hle⟩)
          · exact hdec h
          · obtain rfl | hc := List.mem_cons.1 hc
            · exact hlt hle
            · exact hds ⟨c, hc, hle⟩
        rw [if_neg hnone, if_neg (List.cons_ne_nil _ _), if_neg (by simpa using hds)]
        by_cases hnil : ds = [] <;> simp [hnil]

theorem strtoul_eq {base : ℕ} {ds : List Byte} (h : ∀ b ∈ ds, digitValue b < base) :
    strtoul base ds = digitsValue base ds := by
  rw [strtoul, List.takeWhile_eq_self_iff.2 fun b hb => decide_eq_true (h b hb)]
  rfl

theorem charCode_eq (base : Base) {ds : List Byte} (h : ∀ b ∈ ds, digitValue b < base.value)
    (hr : r = (match base with | .dec => .dec | .oct => .oct | .hex => .hex)) :
    charCode r ds = BitVec.ofNat 8 (digitsValue base.value ds) := by
  rw [charCode, ← strtoul_eq h, hr]
  cases base <;> rfl

/-- The first zero of a numeral that is not decimal. -/
theorem charCodes_zero : charCodes .start [] out (chr '0' :: l) = charCodes .zero [] out l :=
  charCodes_cons (by decide) (by decide) (show Radix.start.step (chr '0') = some (.zero, false) by decide)

theorem charCodes_decimal {ds : List Byte} (h : ∀ b ∈ ds, digitValue b < 10)
    (hr : r ∈ [Radix.zero, .oct, .dec]) :
    charCodes r digits out (ds ++ l) = charCodes (ds.foldl Radix.after r) (digits ++ ds) out l := by
  refine charCodes_digits Radix.after [.zero, .oct, .dec] (fun r hr b hb => ?_) hr
  obtain ⟨hascii, hblank, -⟩ := digit_facts b ((h b hb).trans (by decide))
  refine ⟨hascii, hblank, step_decimal b (h b hb) r hr, ?_⟩
  unfold Radix.after
  split_ifs <;> decide

theorem Numeral.digits_ne_nil (x : Numeral) : x.digits ≠ [] := by
  intro h
  have hpos := x.pos
  rw [h] at hpos
  exact absurd hpos (Nat.lt_irrefl 0)

/-- **What is stored of a numeral, and what it stands for.** -/
theorem charCodes_numeral (x : Numeral) (out l : List Byte) :
    ∃ r, charCodes .start [] out (x.text ++ l) = charCodes r x.stored out l ∧
      charCode r x.stored = BitVec.ofNat 8 x.code ∧ x.stored ≠ [] := by
  obtain ⟨base, ds, hvalid, hpos, hlt, hdecimal⟩ := x
  have hne : ds ≠ [] := Numeral.digits_ne_nil ⟨base, ds, hvalid, hpos, hlt, hdecimal⟩
  cases base with
  | hex =>
    refine ⟨.hex, ?_, charCode_eq .hex hvalid rfl, hne⟩
    show charCodes .start [] out (chr '0' :: chr 'x' :: (ds ++ l)) = charCodes .hex ds out l
    rw [charCodes_zero, charCodes_cons (by decide) (by decide)
      (show Radix.zero.step (chr 'x') = some (.hex, false) by decide),
      charCodes_digits (fun _ _ => .hex) [.hex] _ List.mem_cons_self, List.foldl_fixed' fun _ => rfl]
    · rfl
    · intro r hr b hb
      obtain rfl := List.mem_singleton.1 hr
      obtain ⟨hascii, hblank, hstep⟩ := digit_facts b (hvalid b hb)
      exact ⟨hascii, hblank, hstep, List.mem_cons_self⟩
  | oct =>
    refine ⟨.oct, ?_, charCode_eq .oct hvalid rfl, hne⟩
    show charCodes .start [] out (chr '0' :: (ds ++ l)) = charCodes .oct ds out l
    have hno : ¬(Radix.zero = .dec ∨ ∃ b ∈ ds, 8 ≤ digitValue b) := by
      rintro (h | ⟨b, hb, hle⟩)
      · exact absurd h (by decide)
      · exact absurd (hvalid b hb) (Nat.not_lt.2 hle)
    rw [charCodes_zero, charCodes_decimal (fun b hb => (hvalid b hb).trans (by decide)) List.mem_cons_self,
      foldl_after, if_neg hno, if_neg hne]
    rfl
  | dec =>
    obtain ⟨b, ds, rfl⟩ := List.exists_cons_of_ne_nil hne
    have hlt10 : ∀ c ∈ ds, digitValue c < 10 := fun c hc => hvalid c (List.mem_cons_of_mem _ hc)
    by_cases hb : b = chr '0'
    · subst hb
      obtain ⟨c, hc, hle⟩ := hdecimal rfl rfl
      have hmem : c ∈ ds := by
        obtain rfl | hc := List.mem_cons.1 hc
        · exact absurd hle (by decide)
        · exact hc
      have hstored : (⟨.dec, chr '0' :: ds, hvalid, hpos, hlt, hdecimal⟩ : Numeral).stored = ds :=
        if_pos ⟨rfl, rfl⟩
      rw [hstored]
      refine ⟨.dec, ?_, charCode_eq .dec hlt10 rfl, List.ne_nil_of_mem hmem⟩
      show charCodes .start [] out (chr '0' :: (ds ++ l)) = charCodes .dec ds out l
      rw [charCodes_zero, charCodes_decimal hlt10 List.mem_cons_self, foldl_after,
        if_pos (Or.inr ⟨c, hmem, hle⟩)]
      rfl
    · have hstored : (⟨.dec, b :: ds, hvalid, hpos, hlt, hdecimal⟩ : Numeral).stored = b :: ds :=
        if_neg fun h => hb (Option.some.inj h.2)
      obtain ⟨hascii, hblank, -⟩ := digit_facts b ((hvalid b List.mem_cons_self).trans (by decide))
      rw [hstored]
      refine ⟨.dec, ?_, charCode_eq .dec hvalid rfl, List.cons_ne_nil b ds⟩
      show charCodes .start [] out (b :: (ds ++ l)) = charCodes .dec (b :: ds) out l
      rw [charCodes_cons hascii hblank (step_start b (hvalid b List.mem_cons_self) hb), if_pos rfl,
        charCodes_decimal hlt10 (by decide), foldl_after, if_pos (Or.inl rfl)]
      rfl

/-! ### Arguments -/

/-- Nothing is left of a numeral that has been written. -/
theorem endNumeral_nil (hout : out.length ≤ decodedOutSize) : endNumeral r [] out = some out := by
  have hlast : lastDigits [] = [] := by simp [lastDigits]
  have hraw : rawDigits [] = [] := by simp [rawDigits]
  unfold endNumeral
  dsimp only
  rw [if_pos (Or.inl hlast), hraw, List.append_nil, List.take_of_length_le hout]

/-- A numeral that is not longer than the buffer. -/
theorem endNumeral_short (hne : digits ≠ []) (hshort : digits.length < maxBuf)
    (hroom : out.length < decodedOutSize) :
    endNumeral r digits out = some (out ++ [charCode r digits]) := by
  have hzero : digits.length / 9 = 0 := Nat.div_eq_of_lt (hshort.trans (by decide))
  have hraw : rawDigits digits = [] := by
    rw [rawDigits, hzero]
    rfl
  have hlast : lastDigits digits = digits := by rw [lastDigits, hzero, Nat.mul_zero, List.drop_zero]
  unfold endNumeral
  dsimp only
  rw [hraw, hlast, List.append_nil, List.take_of_length_le hroom.le,
    if_neg (by rintro (h | h); exacts [hne h, hroom.ne h]), if_neg hshort.ne]

theorem charCodes_blanks {bs : List Byte} (hbs : ∀ c ∈ bs, isAscii c = true ∧ blank c = true)
    (hout : out.length ≤ decodedOutSize) : charCodes r [] out (bs ++ l) = charCodes r [] out l := by
  induction bs with
  | nil => rfl
  | cons c bs ih =>
    obtain ⟨hascii, hblank⟩ := hbs c List.mem_cons_self
    rw [List.cons_append, charCodes, if_neg (by simp [hascii]), if_pos hblank, endNumeral_nil hout]
    exact ih fun d hd => hbs d (List.mem_cons_of_mem _ hd)

/-- The end of an argument. -/
theorem charCodes_after {bs : List Byte} (hbs : ∀ c ∈ bs, isAscii c = true ∧ blank c = true)
    (hb : b = chr ',' ∨ b = chr ')') {out' : List Byte} (hend : endNumeral r digits out = some out')
    (hout : out'.length ≤ decodedOutSize) :
    charCodes r digits out (bs ++ b :: l) =
      if b = chr ',' then charCodes .start [] out' l else some (some (out', l)) := by
  obtain ⟨hascii, hblank, hstep⟩ := step_blank b hb r (by cases r <;> decide)
  have hclose : b = chr ',' ∨ b = chr ')' := hb
  have hlast : ∀ {ds out₁ : List Byte}, endNumeral r ds out₁ = some out' →
      charCodes r ds out₁ (b :: l) =
        if b = chr ',' then charCodes .start [] out' l else some (some (out', l)) := by
    intro ds out₁ h
    rw [charCodes, if_neg (by simp [hascii]), if_neg (by simp [hblank]), hstep]
    dsimp only
    rw [h, Option.bind_eq_bind, Option.bind_some]
    by_cases hcomma : b = chr ','
    · rw [if_pos hcomma, if_pos hcomma]
    · rw [if_neg hcomma, if_neg hcomma, if_pos (hclose.resolve_left hcomma)]
  cases bs with
  | nil => exact hlast hend
  | cons c bs =>
    obtain ⟨hascii', hblank'⟩ := hbs c List.mem_cons_self
    rw [List.cons_append, charCodes, if_neg (by simp [hascii']), if_pos hblank', hend,
      Option.bind_eq_bind, Option.bind_some,
      charCodes_blanks (fun d hd => hbs d (List.mem_cons_of_mem _ hd)) hout]
    exact hlast (endNumeral_nil hout)

theorem charCodes_argument (x : Argument) (hshort : x.numeral.stored.length < maxBuf)
    (hroom : out.length < decodedOutSize) (hb : b = chr ',' ∨ b = chr ')') :
    charCodes .start [] out (x.text ++ b :: l) =
      if b = chr ',' then charCodes .start [] (out ++ [BitVec.ofNat 8 x.numeral.code]) l
      else some (some (out ++ [BitVec.ofNat 8 x.numeral.code], l)) := by
  obtain ⟨r, hread, hcode, hne⟩ := charCodes_numeral x.numeral out (x.after ++ b :: l)
  rw [Argument.text, List.append_assoc, List.append_assoc, charCodes_blanks x.blank_before hroom.le, hread]
  refine charCodes_after x.blank_after hb ?_ ?_
  · rw [endNumeral_short hne hshort hroom, hcode]
  · rw [List.length_append]
    exact hroom

theorem charCodes_argumentList (xs : List Argument)
    (hshort : ∀ x ∈ xs, x.numeral.stored.length < maxBuf) :
    ∀ {out : List Byte}, out.length + xs.length ≤ decodedOutSize →
      charCodes .start [] out (argumentList xs ++ chr ')' :: l) =
        some (some (out ++ xs.map fun x => BitVec.ofNat 8 x.numeral.code, l)) := by
  fun_induction argumentList xs with
  | case1 =>
    intro out hout
    rw [List.map_nil, List.append_nil]
    have hnil : ∀ c ∈ ([] : List Byte), isAscii c = true ∧ blank c = true := by simp
    exact charCodes_after hnil (Or.inr rfl) (endNumeral_nil hout) hout
  | case2 x =>
    intro out hout
    exact charCodes_argument x (hshort x List.mem_cons_self) hout (Or.inr rfl)
  | case3 x y xs ih =>
    intro out hout
    rw [List.length_cons] at hout
    have hnext : (out ++ [BitVec.ofNat 8 x.numeral.code]).length + (y :: xs).length ≤ decodedOutSize := by
      rw [List.length_append, List.length_singleton]
      omega
    rw [List.append_assoc, List.cons_append,
      charCodes_argument x (hshort x List.mem_cons_self) (by omega) (Or.inl rfl), if_pos rfl,
      ih (fun z hz => hshort z (List.mem_cons_of_mem _ hz)) hnext, List.append_assoc]
    rfl

end Reading

/-- **The automaton inverts the spelling** of a list of character codes: it writes the characters, as
long as no numeral has more than seven digits behind a leading zero or `0x`, and they fit the output. -/
theorem sfccLoop_numerals {before : List Byte} (hbefore : before ≠ []) (rest : List Byte)
    {xs : List Argument} (hshort : ∀ x ∈ xs, x.numeral.stored.length < maxBuf)
    (hfit : xs.length ≤ decodedOutSize) (decodedOut : ℕ → Byte) {src : List Byte}
    (hsrc : src = before ++ chr '(' :: (argumentList xs ++ chr ')' :: rest)) :
    ∃ s, sfccLoop src (src.length + 1) before.length ⟨0, [], 0, 0, ⟨decodedOut, decodedOutSize, 0⟩⟩ =
        some (stopAt src.length (some rest), s) ∧
      Holds s.output (xs.map fun x => BitVec.ofNat 8 x.numeral.code) := by
  have hdrop : src.drop before.length = chr '(' :: (argumentList xs ++ chr ')' :: rest) := by
    rw [hsrc, List.drop_left]
  have hcall := sfccLoop_call hdrop (List.length_pos_of_ne_nil hbefore) decodedOut
  have hroom : ([] : List Byte).length + xs.length ≤ decodedOutSize := by
    rwa [List.length_nil, Nat.zero_add]
  rw [charCodes_argumentList xs hshort hroom, List.nil_append] at hcall
  exact hcall

/-- `(65, 0102 ,0x43)`. -/
theorem sfccLoop_numerals_three :
    ∃ s, sfccLoop ("d(65, 0102 ,0x43)".toList.map chr) 18 1 ⟨0, [], 0, 0, ⟨fun _ => 0, decodedOutSize, 0⟩⟩ =
      some (16, s) ∧ Holds s.output [0x41, 0x42, 0x43] :=
  @sfccLoop_numerals ("d".toList.map chr) (by decide) []
    [⟨[], ⟨.dec, [chr '6', chr '5'], by decide, by decide, by decide, by decide⟩, [], by decide, by decide⟩,
      ⟨[chr ' '], ⟨.oct, [chr '1', chr '0', chr '2'], by decide, by decide, by decide, by decide⟩, [chr ' '],
        by decide, by decide⟩,
      ⟨[], ⟨.hex, [chr '4', chr '3'], by decide, by decide, by decide, by decide⟩, [], by decide, by decide⟩]
    (by decide) (by decide) (fun _ => 0) _ (by decide)

/-- `(0x0000000041)`: eight zeros are copied as they are. -/
theorem tenDigits_copied :
    ¬∃ s, sfccLoop ("d(0x0000000041)".toList.map chr) 16 1 ⟨0, [], 0, 0, ⟨fun _ => 0, decodedOutSize, 0⟩⟩ =
      some (14, s) ∧ Holds s.output [0x41] := by
  have hlen : (sfccLoop ("d(0x0000000041)".toList.map chr) 16 1
      ⟨0, [], 0, 0, ⟨fun _ => 0, decodedOutSize, 0⟩⟩).map (fun r => r.2.output.len) = some 9 := by
    decide +kernel
  rintro ⟨s, hloop, hout⟩
  rw [hloop] at hlen
  exact absurd (hout.len.symm.trans (Option.some.inj hlen)) (by decide)

end Snort.Jsnorm
