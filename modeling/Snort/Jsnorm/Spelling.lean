import Mathlib.Data.Bool.AllAny
import Snort.Jsnorm.CharCode

/-!
# The spellings of an unescaped script

* `Spelling`: a code unit, and one of the ways to write it inside `unescape(…)`;
* `scanAll`: `Unescape_scan_fsm` over a text;
* `scanAll_spelling`: what is written for a spelling;
* **`unescaped_eq_iff`**: when two spellings of the same units are written alike.
-/

namespace Snort.Jsnorm

open FallThrough

/-! ### Spellings -/

/-- How a unit is written: as it is, `%XX`, `\xXX`, `%uXXXX` or `\uXXXX`. -/
inductive Form
  | raw
  | percent
  | backslash
  | upercent
  | ubackslash
  deriving DecidableEq

/-- A letter or a digit. -/
def isAlnum (n : ℕ) : Bool := 48 ≤ n && n < 58 || 65 ≤ n && n < 91 || 97 ≤ n && n < 123

/-- The units that a form can write. -/
def Form.Writes (f : Form) (n : ℕ) : Prop :=
  match f with
  | .raw => isAlnum n = true
  | .percent | .backslash => n < 256
  | .upercent | .ubackslash => n < 65536

/-- A unit, its form and the case of its digits, the last one first. -/
structure Spelling where
  unit : ℕ
  form : Form
  upper : ℕ → Bool
  writes : form.Writes unit

/-- A digit of either case. -/
def hexDigit (upper : Bool) (n : ℕ) : Byte :=
  if n < 10 then BitVec.ofNat 8 (48 + n) else if upper then BitVec.ofNat 8 (55 + n) else BitVec.ofNat 8 (87 + n)

/-- The last digits of a number. -/
def hexDigits (upper : ℕ → Bool) (n : ℕ) : ℕ → List Byte
  | 0 => []
  | k + 1 => hexDigit (upper k) (n / 16 ^ k % 16) :: hexDigits upper n k

/-- What stands in front of the digits. -/
def Form.lead (f : Form) : List Byte :=
  match f with
  | .raw => []
  | .percent => [chr '%']
  | .backslash => [chr '\\', chr 'x']
  | .upercent => [chr '%', chr 'u']
  | .ubackslash => [chr '\\', chr 'u']

def Spelling.text (x : Spelling) : List Byte :=
  match x.form with
  | .raw => [BitVec.ofNat 8 x.unit]
  | .percent | .backslash => x.form.lead ++ hexDigits x.upper x.unit 2
  | .upercent | .ubackslash => x.form.lead ++ hexDigits x.upper x.unit 4

/-- The byte that is written: only `%u` asks the unicode map. -/
def Spelling.byte (unicodeMap : Option (ℕ → ℤ)) (x : Spelling) : Byte :=
  if x.form = .upercent then BitVec.ofInt 8 (unicodeChar unicodeMap x.unit) else BitVec.ofNat 8 x.unit

/-- A spelled text. -/
def spelled (xs : List Spelling) : List Byte := xs.flatMap Spelling.text

/-! ### Rows -/

/-- A state between two units. -/
def between (i : ℕ) : Bool := i = U0 || i = U1 || (U3 < i && i < U6 && i ≠ U4 && i ≠ U5)

/-- The characters that are written as they are: letters, digits and quotes. -/
def plainChars : List Byte := ((List.range 128).filter fun n => isAlnum n || n = 34 || n = 39).map (BitVec.ofNat 8)

/-- The row that takes a character of the arguments. -/
def rowOf (b : Byte) (i : ℕ) : Option (ActionUnsc × ℕ) := do
  let v ← validChars (toupper b.toInt)
  let m ← find unescapeNorm (isIndexed (toupper b.toInt) v) i
  return (m.action, m.next)

theorem blank_plain : ∀ b ∈ plainChars, blank b = false := List.all_iff_forall_prop.1 (by decide +kernel)

theorem rowOf_plain : ∀ b ∈ plainChars, ∀ i < U6, between i = true → (rowOf b i).any (fun m =>
    (m.1 = .nop || m.1 = .unescape) && between m.2) = true :=
  List.all_iff_forall_prop.1 (by decide +kernel)

/-- The rows that a spelling starts with, and the one for the closing parenthesis. -/
theorem rowOf_between : ∀ i < U6, between i = true → rowOf (chr '%') i = some (.save, U1 + 1) ∧
    rowOf (chr '\\') i = some (.save, U2 + 1) ∧ rowOf (chr ')') i = some (.quit, U0) := by
  decide +kernel

theorem rowOf_lead : rowOf (chr 'x') (U2 + 1) = some (.saveNop, U2 + 2) ∧
    rowOf (chr 'u') (U1 + 1) = some (.saveNop, U1 + 4) ∧
    rowOf (chr 'u') (U2 + 1) = some (.conv, U2 + 5) := by
  decide +kernel

/-- The digits. -/
def hexChars : List Byte := (List.range 16).flatMap fun n => [hexDigit false n, hexDigit true n]

theorem rowOf_digit : ∀ b ∈ hexChars, rowOf b (U1 + 1) = some (.conv, U1 + 2) ∧
    rowOf b (U1 + 2) = some (.percent, U0) ∧ rowOf b (U2 + 2) = some (.conv, U2 + 3) ∧
    rowOf b (U2 + 3) = some (.backslash, U0) ∧ rowOf b (U1 + 7) = some (.upercent, U0) ∧
    rowOf b (U2 + 8) = some (.ubackslash, U0) :=
  List.all_iff_forall_prop.1 (by decide +kernel)

theorem rowOf_conv : ∀ b ∈ hexChars, ∀ i ∈ [U1 + 4, U1 + 5, U1 + 6, U2 + 5, U2 + 6, U2 + 7],
    rowOf b i = some (.conv, i + 1) :=
  List.all_iff_forall_prop.1 (by decide +kernel)

/-! ### What is written -/

section Run

variable {unicodeMap : Option (ℕ → ℤ)} {s s' s₁ s₂ : UnescapeState} {b : Byte} {out : List Byte}

/-- An output of which only the first bytes may have had room. -/
theorem Holds.put_take {d : Dbuf} (h : Holds d (out.take decodedOutSize)) (c : ℤ) :
    ∃ d', d.put decodedOutSize c = some d' ∧
      Holds d' ((out ++ [BitVec.ofInt 8 c]).take decodedOutSize) := by
  by_cases hroom : out.length < decodedOutSize
  · rw [List.take_of_length_le hroom.le] at h
    obtain ⟨d', hput, hd'⟩ := h.put hroom c
    refine ⟨d', hput, ?_⟩
    rwa [List.take_of_length_le (by simpa using hroom)]
  · have hlen : d.len = decodedOutSize := by rw [h.len, List.length_take]; omega
    have hsize := h.size
    refine ⟨d, ?_, ?_⟩
    · rw [Dbuf.put, if_neg (by omega), Dbuf.setLen_eq _ (by omega)]
    · rwa [List.take_append_of_le_length (by omega)]

/-- The output goes back to the place that was saved. -/
theorem Holds.rewind_take {d : Dbuf} {more : List Byte} (h : Holds d ((out ++ more).take decodedOutSize)) :
    ∃ d', d.rewind (some (min out.length decodedOutSize)) = some d' ∧
      Holds d' (out.take decodedOutSize) := by
  have hlen := h.len
  have hsize := h.size
  rw [List.length_take, List.length_append] at hlen
  have htake : ∀ n ≤ out.length, ((out ++ more).take decodedOutSize).take (min n decodedOutSize) =
      out.take (min n decodedOutSize) := by
    intro n hn
    rw [List.take_take, List.take_append_of_le_length (by omega)]
    congr 1
    omega
  have hout : out.take decodedOutSize = out.take (min out.length decodedOutSize) := by
    rw [List.take_eq_take_min, Nat.min_comm]
  rw [hout, ← htake _ le_rfl]
  unfold Dbuf.rewind
  dsimp only
  have hlength : (((out ++ more).take decodedOutSize).take (min out.length decodedOutSize)).length =
      min out.length decodedOutSize := by
    rw [List.length_take, List.length_take, List.length_append]
    omega
  by_cases hlt : min out.length decodedOutSize < d.len
  · rw [if_pos hlt, Dbuf.setLen_eq _ (by omega)]
    refine ⟨_, rfl, hsize, hlength.symm, by omega, fun k hk => ?_⟩
    rw [List.getElem_take]
    exact h.data k _
  · rw [if_neg hlt]
    refine ⟨d, rfl, ?_⟩
    rwa [List.take_of_length_le]
    rw [← h.len]
    omega

/-- A text leads from a state to another. -/
inductive Reads (unicodeMap : Option (ℕ → ℤ)) : UnescapeState → List Byte → UnescapeState → Prop
  | nil (s : UnescapeState) : Reads unicodeMap s [] s
  | cons {s s₁ s₂ : UnescapeState} {b : Byte} {l : List Byte}
      (hscan : ∀ js, ∃ js', unescapeScanFsm unicodeMap s b.toInt js = some (s₁, js', .ok))
      (h : Reads unicodeMap s₁ l s₂) : Reads unicodeMap s (b :: l) s₂

theorem Reads.append {l l' : List Byte} (h : Reads unicodeMap s l s₁) (h' : Reads unicodeMap s₁ l' s₂) :
    Reads unicodeMap s (l ++ l') s₂ := by
  induction h with
  | nil => exact h'
  | cons hscan _ ih => exact .cons hscan (ih h')

/-- The loop of `UnescapeDecode` over a text. -/
theorem Reads.loop {src l rest : List Byte} (h : Reads unicodeMap s l s') {ptr : ℕ}
    (hl : src.drop ptr = l ++ rest) (hptr : ptr ≤ src.length) (fuel : ℕ) (js : JSState) :
    ∃ js', unescapeLoop unicodeMap (fun _ i => src[i]?) src.length (l.length + fuel) ptr s js =
      unescapeLoop unicodeMap (fun _ i => src[i]?) src.length fuel (ptr + l.length) s' js' := by
  induction h generalizing ptr js with
  | nil s => exact ⟨js, by rw [List.length_nil, Nat.zero_add, Nat.add_zero]⟩
  | @cons s s₁ s₂ b l hscan _ ih =>
    rw [List.cons_append] at hl
    obtain ⟨hlength, hget, hl'⟩ := Buffer.drop_eq_cons hl
    obtain ⟨js₁, hscan⟩ := hscan js
    obtain ⟨js', ih⟩ := ih hl' (by omega) js₁
    refine ⟨js', ?_⟩
    rw [List.length_cons, show l.length + 1 + fuel = l.length + fuel + 1 by omega, unescapeLoop,
      if_pos (by omega), hget, Option.bind_eq_bind, Option.bind_some, hscan, Option.bind_eq_bind,
      Option.bind_some]
    dsimp only
    rw [if_neg (by simp), movePtr, if_pos (by omega), Option.bind_eq_bind, Option.bind_some, ih,
      show ptr + 1 + l.length = ptr + (l.length + 1) by omega]

/-- A character that is no white space. -/
theorem unescapeScanFsm_rowOf (hblank : blank b = false) {a : ActionUnsc} {n : ℕ}
    (hrow : rowOf b s.fsm = some (a, n)) (js : JSState) :
    unescapeScanFsm unicodeMap s b.toInt js = unescapeExec unicodeMap { s with fsm := n } a b.toInt js := by
  obtain ⟨v, hvalid, hrow⟩ := Option.bind_eq_some_iff.1 hrow
  obtain ⟨m, hfind, hrow⟩ := Option.bind_eq_some_iff.1 hrow
  obtain ⟨rfl, rfl⟩ := Prod.mk.inj (Option.some.inj hrow)
  unfold unescapeScanFsm
  dsimp only
  rw [show isspace b.toInt = false from hblank, if_neg Bool.false_ne_true, hvalid, Option.bind_eq_bind,
    Option.bind_some, hfind, Option.bind_eq_bind, Option.bind_some]

theorem writeDecodedUnescape_take (h : Holds s.output (out.take decodedOutSize)) (c : ℤ) :
    ∃ d, (∀ js, ∃ js', writeDecodedUnescape s c js =
        some ({ s with numSpaces := 0, output := d }, js')) ∧
      Holds d ((out ++ [BitVec.ofInt 8 c]).take decodedOutSize) := by
  obtain ⟨d, hput, hd⟩ := h.put_take c
  refine ⟨d, fun js => ⟨checkWSExceeded js s.numSpaces, ?_⟩, hd⟩
  unfold writeDecodedUnescape
  rw [hput]
  rfl

/-- A state between two units, with what has been written. -/
structure Idle (s : UnescapeState) (out : List Byte) : Prop where
  between : between s.fsm = true
  paren : s.parenCount = 1
  output : Holds s.output (out.take decodedOutSize)

/-- A state inside an escape sequence, of which `more` has been written. -/
structure Escaping (s : UnescapeState) (out more : List Byte) (i : ℕ) (n : ℤ) : Prop where
  fsm : s.fsm = i
  paren : s.parenCount = 1
  output : Holds s.output ((out ++ more).take decodedOutSize)
  overwrite : s.overwrite = some (min out.length decodedOutSize)
  iNorm : s.iNorm = n

theorem between_lt {i : ℕ} (h : between i = true) : i < U6 := by
  unfold between at h
  simp only [Bool.or_eq_true, Bool.and_eq_true, decide_eq_true_eq] at h
  obtain (rfl | rfl) | h := h
  · decide
  · decide
  · exact h.1.1.2

/-- A character leads from a state to another. -/
def Steps (unicodeMap : Option (ℕ → ℤ)) (s : UnescapeState) (b : Byte) (s' : UnescapeState) : Prop :=
  ∀ js, ∃ js', unescapeScanFsm unicodeMap s b.toInt js = some (s', js', .ok)

variable (unicodeMap)

/-- A character whose action is to write it. -/
theorem steps_write {t : UnescapeState} {a : ActionUnsc} {n : ℕ} (hblank : blank b = false)
    (hrow : rowOf b s.fsm = some (a, n)) (h : Holds t.output (out.take decodedOutSize))
    (hact : ∀ js, unescapeAct unicodeMap { s with fsm := n } a b.toInt js =
      (writeDecodedUnescape t b.toInt js).bind fun r => some (r.1, r.2, .ok, true)) :
    ∃ d e, Steps unicodeMap s b { t with numSpaces := 0, output := d, prevEvent := e } ∧
      Holds d ((out ++ [b]).take decodedOutSize) := by
  obtain ⟨d, hwrite, hd⟩ := writeDecodedUnescape_take h b.toInt
  rw [BitVec.ofInt_toInt] at hd
  refine ⟨d, BitVec.ofInt 8 b.toInt, fun js => ?_, hd⟩
  obtain ⟨js', hwrite⟩ := hwrite js
  refine ⟨js', ?_⟩
  rw [unescapeScanFsm_rowOf hblank hrow, unescapeExec, hact, hwrite]
  rfl

theorem Idle.plain (h : Idle s out) (hb : b ∈ plainChars) :
    ∃ s', Steps unicodeMap s b s' ∧ Idle s' (out ++ [b]) := by
  have hblank : blank b = false := blank_plain b hb
  obtain ⟨⟨a, n⟩, hrow, hm⟩ := (Option.any_eq_true _ _).1
    (rowOf_plain b hb s.fsm (between_lt h.between) h.between)
  simp only [Bool.and_eq_true, Bool.or_eq_true, decide_eq_true_eq] at hm
  obtain ⟨rfl | rfl, hn⟩ := hm
  · obtain ⟨d, e, hsteps, hd⟩ := steps_write unicodeMap
      (t := { s with fsm := n, prevAction := .backslash, iNorm := 0, overwrite := none }) hblank hrow
      h.output fun _ => rfl
    exact ⟨_, hsteps, hn, h.paren, hd⟩
  · obtain ⟨d, e, hsteps, hd⟩ := steps_write unicodeMap
      (t := { s with fsm := n, prevAction := .unescape, iNorm := 0 }) hblank hrow h.output fun _ => rfl
    exact ⟨_, hsteps, hn, h.paren, hd⟩

theorem Idle.save (h : Idle s out) (hblank : blank b = false) {i : ℕ}
    (hrow : rowOf b s.fsm = some (.save, i)) :
    ∃ s', Steps unicodeMap s b s' ∧ Escaping s' out [b] i 0 := by
  obtain ⟨d, e, hsteps, hd⟩ := steps_write unicodeMap
    (t := { s with fsm := i, prevAction := .backslash, iNorm := 0, overwrite := some s.output.len }) hblank
    hrow h.output fun _ => rfl
  refine ⟨_, hsteps, rfl, h.paren, hd, ?_, rfl⟩
  show some s.output.len = _
  rw [h.output.len, List.length_take, Nat.min_comm]

variable {more : List Byte} {i i' : ℕ} {n m : ℤ}

theorem Escaping.saveNop (h : Escaping s out more i n) (hblank : blank b = false)
    (hrow : rowOf b i = some (.saveNop, i')) :
    ∃ s', Steps unicodeMap s b s' ∧ Escaping s' out (more ++ [b]) i' 0 := by
  obtain ⟨d, e, hsteps, hd⟩ := steps_write unicodeMap
    (t := { s with fsm := i', prevAction := .backslash, iNorm := 0 }) hblank (h.fsm ▸ hrow) h.output
    fun _ => rfl
  rw [List.append_assoc] at hd
  exact ⟨_, hsteps, rfl, h.paren, hd, h.overwrite, rfl⟩

theorem Escaping.conv (h : Escaping s out more i n) (hblank : blank b = false)
    (hrow : rowOf b i = some (.conv, i')) (hshift : shiftHex n b.toInt = some m) :
    ∃ s', Steps unicodeMap s b s' ∧ Escaping s' out (more ++ [b]) i' m := by
  obtain ⟨d, e, hsteps, hd⟩ := steps_write unicodeMap
    (t := { s with fsm := i', prevAction := .backslash, iNorm := m }) hblank (h.fsm ▸ hrow) h.output
    fun js => by
      unfold unescapeAct
      dsimp only
      rw [h.iNorm, hshift]
      rfl
  rw [List.append_assoc] at hd
  exact ⟨_, hsteps, rfl, h.paren, hd, h.overwrite, rfl⟩

/-- The last digit: the sequence is written over. -/
theorem Escaping.last (h : Escaping s out more i n) (hblank : blank b = false) {a : ActionUnsc}
    (hrow : rowOf b i = some (a, U0)) (hshift : shiftHex n b.toInt = some m) {alert : U16}
    {toChar : ℤ → ℤ} (hact : ∀ t c js, unescapeAct unicodeMap t a c js =
      (unescapeConv t alert toChar c js).bind fun r => some (r.1, r.2, .ok, true)) :
    ∃ s', Steps unicodeMap s b s' ∧ Idle s' (out ++ [BitVec.ofInt 8 (toChar m)]) := by
  obtain ⟨d₁, hrewind, hd₁⟩ := h.output.rewind_take
  let t : UnescapeState := { s with
    fsm := U0
    prevAction := .backslash
    alertFlags := s.alertFlags ||| alert
    overwrite := none
    output := d₁ }
  obtain ⟨d, hwrite, hd⟩ := writeDecodedUnescape_take (s := t) hd₁ (toChar m)
  refine ⟨{ t with numSpaces := 0, output := d, iNorm := 0, prevEvent := BitVec.ofInt 8 b.toInt },
    fun js => ?_, (by decide : between U0 = true), h.paren, hd⟩
  obtain ⟨js', hwrite⟩ := hwrite js
  refine ⟨js', ?_⟩
  have hconv : unescapeConv { s with fsm := U0 } alert toChar b.toInt js =
      some ({ t with numSpaces := 0, output := d, iNorm := 0 }, js') := by
    unfold unescapeConv
    dsimp only
    rw [show shiftHex s.iNorm b.toInt = some m by rw [h.iNorm, hshift], h.overwrite,
      Option.bind_eq_bind, Option.bind_some, hrewind, Option.bind_eq_bind, Option.bind_some, hwrite]
    rfl
  rw [unescapeScanFsm_rowOf hblank (h.fsm ▸ hrow), unescapeExec, hact, hconv]
  rfl

/-! ### The digits -/

theorem hexDigit_mem (upper : Bool) {k : ℕ} (hk : k < 16) : hexDigit upper k ∈ hexChars := by
  refine List.mem_flatMap.2 ⟨k, List.mem_range.2 hk, ?_⟩
  cases upper
  · exact List.mem_cons_self
  · exact List.mem_cons_of_mem _ List.mem_cons_self

theorem blank_hexChars : ∀ b ∈ hexChars, blank b = false := List.all_iff_forall_prop.1 (by decide +kernel)

theorem hexLookup_hexDigit : ∀ upper : Bool, ∀ k < 16, hexLookup (hexDigit upper k).toInt = some (k : ℤ) := by
  decide +kernel

theorem shiftHex_hexDigit (upper : Bool) {k : ℕ} (hk : k < 16) (n : ℤ) :
    shiftHex n (hexDigit upper k).toInt = some (n * 16 + k) := by
  rw [shiftHex, hexLookup_hexDigit upper k hk, Option.bind_eq_bind, Option.bind_some, if_neg (by omega)]
  rfl

/-- Two digits. -/
theorem Escaping.two (h : Escaping s out more i 0) (alert : U16) {i₁ : ℕ} {a : ActionUnsc}
    (h₁ : ∀ b ∈ hexChars, rowOf b i = some (.conv, i₁)) (h₂ : ∀ b ∈ hexChars, rowOf b i₁ = some (a, U0))
    (hact : ∀ t c js, unescapeAct unicodeMap t a c js =
      (unescapeConv t alert id c js).bind fun r => some (r.1, r.2, .ok, true))
    (upper : ℕ → Bool) {u : ℕ} (hu : u < 256) :
    ∃ s', Reads unicodeMap s (hexDigits upper u 2) s' ∧ Idle s' (out ++ [BitVec.ofNat 8 u]) := by
  have hlt : ∀ k, u / 16 ^ k % 16 < 16 := fun k => Nat.mod_lt _ (by decide)
  have hmem := fun k => hexDigit_mem (upper k) (hlt k)
  obtain ⟨s₁, hsteps₁, hs₁⟩ := h.conv unicodeMap (blank_hexChars _ (hmem 1)) (h₁ _ (hmem 1))
    (shiftHex_hexDigit _ (hlt 1) 0)
  obtain ⟨s₂, hsteps₂, hs₂⟩ := hs₁.last unicodeMap (blank_hexChars _ (hmem 0)) (h₂ _ (hmem 0))
    (shiftHex_hexDigit _ (hlt 0) _) hact
  refine ⟨s₂, .cons hsteps₁ (.cons hsteps₂ (.nil _)), ?_⟩
  have hvalue : (0 * 16 + ((u / 16 ^ 1 % 16 : ℕ) : ℤ)) * 16 + ((u / 16 ^ 0 % 16 : ℕ) : ℤ) = (u : ℤ) := by
    omega
  rw [hvalue, id, BitVec.ofInt_natCast] at hs₂
  exact hs₂

/-- Four digits. -/
theorem Escaping.four (h : Escaping s out more i n) (alert : U16) (toChar : ℤ → ℤ) {a : ActionUnsc}
    (hconv : ∀ b ∈ hexChars, ∀ j < 3, rowOf b (i + j) = some (.conv, i + j + 1))
    (hlast : ∀ b ∈ hexChars, rowOf b (i + 3) = some (a, U0))
    (hact : ∀ t c js, unescapeAct unicodeMap t a c js =
      (unescapeConv t alert toChar c js).bind fun r => some (r.1, r.2, .ok, true))
    (upper : ℕ → Bool) {u : ℕ} (hu : u < 65536) :
    ∃ s', Reads unicodeMap s (hexDigits upper u 4) s' ∧
      Idle s' (out ++ [BitVec.ofInt 8 (toChar (n * 65536 + u))]) := by
  have hlt : ∀ k, u / 16 ^ k % 16 < 16 := fun k => Nat.mod_lt _ (by decide)
  have hmem := fun k => hexDigit_mem (upper k) (hlt k)
  have hblank := fun k => blank_hexChars _ (hmem k)
  obtain ⟨s₁, hsteps₁, hs₁⟩ := h.conv unicodeMap (hblank 3) (hconv _ (hmem 3) 0 (by decide))
    (shiftHex_hexDigit _ (hlt 3) n)
  obtain ⟨s₂, hsteps₂, hs₂⟩ := hs₁.conv unicodeMap (hblank 2) (hconv _ (hmem 2) 1 (by decide))
    (shiftHex_hexDigit _ (hlt 2) _)
  obtain ⟨s₃, hsteps₃, hs₃⟩ := hs₂.conv unicodeMap (hblank 1) (hconv _ (hmem 1) 2 (by decide))
    (shiftHex_hexDigit _ (hlt 1) _)
  obtain ⟨s₄, hsteps₄, hs₄⟩ := hs₃.last unicodeMap (hblank 0) (hlast _ (hmem 0)) (shiftHex_hexDigit _ (hlt 0) _) hact
  refine ⟨s₄, .cons hsteps₁ (.cons hsteps₂ (.cons hsteps₃ (.cons hsteps₄ (.nil _)))), ?_⟩
  have hvalue : (((n * 16 + ((u / 16 ^ 3 % 16 : ℕ) : ℤ)) * 16 + ((u / 16 ^ 2 % 16 : ℕ) : ℤ)) * 16 +
      ((u / 16 ^ 1 % 16 : ℕ) : ℤ)) * 16 + ((u / 16 ^ 0 % 16 : ℕ) : ℤ) = n * 65536 + u := by
    omega
  rwa [hvalue] at hs₄

/-! ### A spelling -/

theorem mem_plain_of_isAlnum {u : ℕ} (h : isAlnum u = true) : BitVec.ofNat 8 u ∈ plainChars := by
  have hlt : u < 128 := by
    unfold isAlnum at h
    simp only [Bool.or_eq_true, Bool.and_eq_true, decide_eq_true_eq] at h
    omega
  refine List.mem_map.2 ⟨u, List.mem_filter.2 ⟨List.mem_range.2 hlt, ?_⟩, rfl⟩
  rw [h]
  rfl

theorem mem_plain_of_quote (h : b = chr '"' ∨ b = chr '\'') : b ∈ plainChars := by
  obtain rfl | rfl := h <;> decide +kernel

/-- **What is written for a spelling.** -/
theorem Idle.spelling (h : Idle s out) (x : Spelling) :
    ∃ s', Reads unicodeMap s x.text s' ∧ Idle s' (out ++ [x.byte unicodeMap]) := by
  obtain ⟨u, form, upper, hwrites⟩ := x
  obtain ⟨hpercent, hbackslash, -⟩ := rowOf_between s.fsm (between_lt h.between) h.between
  obtain ⟨hleadx, hleadu, hleadconv⟩ := rowOf_lead
  cases form with
  | raw =>
    obtain ⟨s', hsteps, hs'⟩ := h.plain unicodeMap (mem_plain_of_isAlnum hwrites)
    exact ⟨s', .cons hsteps (.nil _), hs'⟩
  | percent =>
    obtain ⟨s₁, hsteps, hs₁⟩ := h.save unicodeMap (by decide) hpercent
    obtain ⟨s', hreads, hs'⟩ := hs₁.two unicodeMap 0x8
      (fun b hb => (rowOf_digit b hb).1) (fun b hb => (rowOf_digit b hb).2.1) (fun _ _ _ => rfl) upper hwrites
    exact ⟨s', .cons hsteps hreads, hs'⟩
  | backslash =>
    obtain ⟨s₁, hsteps₁, hs₁⟩ := h.save unicodeMap (by decide) hbackslash
    obtain ⟨s₂, hsteps₂, hs₂⟩ := hs₁.saveNop unicodeMap (by decide) hleadx
    obtain ⟨s', hreads, hs'⟩ := hs₂.two unicodeMap 0x20
      (fun b hb => (rowOf_digit b hb).2.2.1) (fun b hb => (rowOf_digit b hb).2.2.2.1) (fun _ _ _ => rfl)
      upper hwrites
    exact ⟨s', .cons hsteps₁ (.cons hsteps₂ hreads), hs'⟩
  | upercent =>
    obtain ⟨s₁, hsteps₁, hs₁⟩ := h.save unicodeMap (by decide) hpercent
    obtain ⟨s₂, hsteps₂, hs₂⟩ := hs₁.saveNop unicodeMap (by decide) hleadu
    obtain ⟨s', hreads, hs'⟩ := hs₂.four unicodeMap 0x10 (unicodeChar unicodeMap)
      (fun b hb j hj => rowOf_conv b hb (U1 + 4 + j) (by interval_cases j <;> decide))
      (fun b hb => (rowOf_digit b hb).2.2.2.2.1) (fun _ _ _ => rfl) upper hwrites
    rw [Int.zero_mul, Int.zero_add] at hs'
    exact ⟨s', .cons hsteps₁ (.cons hsteps₂ hreads), hs'⟩
  | ubackslash =>
    -- the `u` is no digit, and the value becomes negative
    have hshift : shiftHex 0 (chr 'u').toInt = some (-1) := by decide
    obtain ⟨s₁, hsteps₁, hs₁⟩ := h.save unicodeMap (by decide) hbackslash
    obtain ⟨s₂, hsteps₂, hs₂⟩ := hs₁.conv unicodeMap (by decide) hleadconv hshift
    obtain ⟨s', hreads, hs'⟩ := hs₂.four unicodeMap 0x40 (unicodeChar unicodeMap)
      (fun b hb j hj => rowOf_conv b hb (U2 + 5 + j) (by interval_cases j <;> decide))
      (fun b hb => (rowOf_digit b hb).2.2.2.2.2) (fun _ _ _ => rfl) upper hwrites
    have hu : u < 65536 := hwrites
    have hchar : BitVec.ofInt 8 (unicodeChar unicodeMap (-1 * 65536 + (u : ℤ))) = BitVec.ofNat 8 u := by
      unfold unicodeChar
      rw [if_neg (by omega), ← BitVec.ofInt_natCast]
      apply BitVec.eq_of_toInt_eq
      rw [BitVec.toInt_ofInt, BitVec.toInt_ofInt, Int.bmod_eq_bmod_iff_bmod_sub_eq_zero]
      rw [show -1 * 65536 + (u : ℤ) - u = -65536 by omega]
      decide
    rw [hchar] at hs'
    exact ⟨s', .cons hsteps₁ (.cons hsteps₂ hreads), hs'⟩

theorem Idle.readsPlain (h : Idle s out) {q : List Byte} (hq : ∀ b ∈ q, b ∈ plainChars) :
    ∃ s', Reads unicodeMap s q s' ∧ Idle s' (out ++ q) := by
  induction q generalizing s out with
  | nil => exact ⟨s, .nil s, by rwa [List.append_nil]⟩
  | cons b q ih =>
    obtain ⟨s₁, hsteps, h₁⟩ := h.plain unicodeMap (hq b List.mem_cons_self)
    obtain ⟨s', hreads, h'⟩ := ih h₁ fun c hc => hq c (List.mem_cons_of_mem _ hc)
    rw [List.append_assoc] at h'
    exact ⟨s', .cons hsteps hreads, h'⟩

theorem Idle.readsSpelled (h : Idle s out) (xs : List Spelling) :
    ∃ s', Reads unicodeMap s (spelled xs) s' ∧ Idle s' (out ++ xs.map (Spelling.byte unicodeMap)) := by
  induction xs generalizing s out with
  | nil => exact ⟨s, .nil s, by rwa [List.map_nil, List.append_nil]⟩
  | cons x xs ih =>
    obtain ⟨s₁, hreads₁, h₁⟩ := h.spelling unicodeMap x
    obtain ⟨s', hreads, h'⟩ := ih h₁
    rw [List.append_assoc] at h'
    exact ⟨s', hreads₁.append hreads, h'⟩

end Run

/-! ### Two spellings -/

/-- The output of `UnescapeDecode` before the strings are joined. -/
def unescaped (unicodeMap : Option (ℕ → ℤ)) (src : List Byte) (ptr : ℕ) (decodedOut : ℕ → Byte)
    (js : JSState) : Option (List Byte) :=
  (unescapeLoop unicodeMap (fun _ i => src[i]?) src.length (src.length + 1) ptr (.start decodedOut) js).map
    fun r => (List.range r.2.1.output.len).map r.2.1.output.data

/-- The arguments of a call, between `q` and `q'`, and what follows. -/
def arguments (q q' rest : List Byte) (xs : List Spelling) : List Byte :=
  chr '(' :: (q ++ spelled xs ++ q' ++ chr ')' :: rest)

section Calls

variable {unicodeMap : Option (ℕ → ℤ)} {q q' : List Byte}

theorem Holds.toList {d : Dbuf} {out : List Byte} (h : Holds d out) :
    (List.range d.len).map d.data = out := by
  refine List.ext_getElem (by rw [List.length_map, List.length_range, h.len]) fun k hk hk' => ?_
  rw [List.getElem_map, List.getElem_range]
  exact h.data k hk'

/-- **The output of a call**: what is written for the spellings, as far as there is room. -/
theorem unescaped_arguments (hq : ∀ b ∈ q, b = chr '"' ∨ b = chr '\'')
    (hq' : ∀ b ∈ q', b = chr '"' ∨ b = chr '\'') (before rest : List Byte) (xs : List Spelling)
    (decodedOut : ℕ → Byte) (js : JSState) :
    unescaped unicodeMap (before ++ arguments q q' rest xs) before.length decodedOut js =
      some ((q ++ xs.map (Spelling.byte unicodeMap) ++ q').take decodedOutSize) := by
  have hopen : ∃ s, (∀ js, ∃ js', unescapeScanFsm unicodeMap (.start decodedOut) (chr '(').toInt js =
      some (s, js', .ok)) ∧ Idle s [] := by
    have hrow : rowOf (chr '(') U0 = some (.paren, U1) := by decide +kernel
    refine ⟨{ UnescapeState.start decodedOut with
      fsm := U1
      parenCount := 1
      prevEvent := BitVec.ofInt 8 (chr '(').toInt }, fun js => ⟨js, ?_⟩, (by decide : between U1 = true), rfl, ?_⟩
    · rw [unescapeScanFsm_rowOf (by decide) hrow]
      rfl
    · exact ⟨rfl, rfl, Nat.zero_le _, fun k hk => absurd hk (Nat.not_lt_zero k)⟩
  obtain ⟨s₁, hopen, h₁⟩ := hopen
  obtain ⟨s₂, hreads₂, h₂⟩ := h₁.readsPlain unicodeMap fun b hb => mem_plain_of_quote (hq b hb)
  obtain ⟨s₃, hreads₃, h₃⟩ := h₂.readsSpelled unicodeMap xs
  obtain ⟨s₄, hreads₄, h₄⟩ := h₃.readsPlain unicodeMap fun b hb =>
    mem_plain_of_quote (hq' b hb)
  have hreads : Reads unicodeMap (.start decodedOut) (chr '(' :: (q ++ spelled xs ++ q')) s₄ :=
    .cons hopen ((hreads₂.append hreads₃).append hreads₄)
  -- the closing parenthesis
  obtain ⟨-, -, hclose⟩ := rowOf_between s₄.fsm (between_lt h₄.between) h₄.between
  have hquit : ∀ js, ∃ s₅, unescapeScanFsm unicodeMap s₄ (chr ')').toInt js = some (s₅, js, .quit) ∧
      s₅.output = s₄.output := by
    intro js
    rw [unescapeScanFsm_rowOf (by decide) hclose, unescapeExec, unescapeAct]
    dsimp only
    rw [h₄.paren, if_pos (show 1 - 1 = 0 from rfl)]
    exact ⟨_, rfl, rfl⟩
  obtain ⟨text, htext⟩ : ∃ text, text = chr '(' :: (q ++ spelled xs ++ q') := ⟨_, rfl⟩
  obtain ⟨src, hsrc⟩ : ∃ src, src = before ++ arguments q q' rest xs := ⟨_, rfl⟩
  rw [← htext] at hreads
  have hdrop : src.drop before.length = text ++ chr ')' :: rest := by
    rw [hsrc, List.drop_left, htext, arguments, List.cons_append]
  have hlength := congrArg List.length hdrop
  rw [List.length_drop, List.length_append, List.length_cons] at hlength
  obtain ⟨fuel, hfuel⟩ := Nat.exists_eq_add_of_le (show text.length + 1 ≤ src.length + 1 by omega)
  have hdrop' : src.drop (before.length + text.length) = chr ')' :: rest := by
    rw [← List.drop_drop, hdrop, List.drop_left]
  obtain ⟨-, hget, -⟩ := Buffer.drop_eq_cons hdrop'
  obtain ⟨js₄, hloop⟩ := hreads.loop hdrop (by omega) (fuel + 1) js
  obtain ⟨s₅, hscan, houtput⟩ := hquit js₄
  rw [← hsrc, unescaped, hfuel, show text.length + 1 + fuel = text.length + (fuel + 1) by omega, hloop,
    unescapeLoop, if_pos (by omega), hget, Option.bind_eq_bind, Option.bind_some, hscan,
    Option.bind_eq_bind, Option.bind_some]
  show some ((List.range s₅.output.len).map s₅.output.data) = _
  rw [houtput, h₄.output.toList]
  rfl

/-- Two spellings of a unit are written alike: the unit fits a byte, or both ask the unicode map, or
none, or the map gives the last byte of the unit. -/
def Alike (unicodeMap : Option (ℕ → ℤ)) (x y : Spelling) : Prop :=
  x.unit < 256 ∨ (x.form = .upercent ↔ y.form = .upercent) ∨
    BitVec.ofInt 8 (unicodeChar unicodeMap x.unit) = BitVec.ofNat 8 x.unit

theorem byte_eq_iff {x y : Spelling} (h : x.unit = y.unit) :
    x.byte unicodeMap = y.byte unicodeMap ↔ Alike unicodeMap x y := by
  have hsmall : x.unit < 256 →
      BitVec.ofInt 8 (unicodeChar unicodeMap x.unit) = BitVec.ofNat 8 x.unit := by
    intro hlt
    unfold unicodeChar
    rw [if_neg (by omega), BitVec.ofInt_natCast]
  unfold Spelling.byte Alike
  rw [← h]
  by_cases hx : x.form = .upercent <;> by_cases hy : y.form = .upercent
  · simp [hx, hy]
  · simp only [hx, hy, if_true, if_false, iff_false, not_true, false_or]
    exact ⟨Or.inr, fun h => h.elim hsmall id⟩
  · simp only [hx, hy, if_true, if_false, iff_true, false_or]
    exact ⟨fun h => Or.inr h.symm, fun h => (h.elim hsmall id).symm⟩
  · simp [hx, hy]

/-- **Two spellings of the same units are written alike** exactly if they are, unit by unit, as far as
there is room. -/
theorem unescaped_eq_iff (hq : ∀ b ∈ q, b = chr '"' ∨ b = chr '\'')
    (hq' : ∀ b ∈ q', b = chr '"' ∨ b = chr '\'') {xs ys : List Spelling}
    (hunits : xs.map Spelling.unit = ys.map Spelling.unit) (before rest : List Byte)
    (decodedOut : ℕ → Byte) (js : JSState) :
    (∃ out, unescaped unicodeMap (before ++ arguments q q' rest xs) before.length decodedOut js = some out ∧
      unescaped unicodeMap (before ++ arguments q q' rest ys) before.length decodedOut js = some out) ↔
    ∀ i x y, q.length + i < decodedOutSize → xs[i]? = some x → ys[i]? = some y →
      Alike unicodeMap x y := by
  rw [unescaped_arguments hq hq', unescaped_arguments hq hq']
  have hlength : xs.length = ys.length := by
    simpa using congrArg List.length hunits
  have hunit : ∀ {i : ℕ} {x y : Spelling}, xs[i]? = some x → ys[i]? = some y → x.unit = y.unit := by
    intro i x y hx hy
    have hget := congrArg (fun l => l[i]?) hunits
    simpa [hx, hy] using hget
  have hget : ∀ (zs : List Spelling) {i : ℕ} {z : Spelling}, q.length + i < decodedOutSize →
      zs[i]? = some z →
      ((q ++ zs.map (Spelling.byte unicodeMap) ++ q').take decodedOutSize)[q.length + i]? =
        some (z.byte unicodeMap) := by
    intro zs i z hi hz
    have hlt : i < zs.length := (List.getElem?_eq_some_iff.1 hz).1
    rw [List.getElem?_take_of_lt hi, List.append_assoc, List.getElem?_append_right (by omega),
      Nat.add_sub_cancel_left, List.getElem?_append_left (by simpa using hlt), List.getElem?_map, hz]
    rfl
  refine ⟨fun ⟨out, hout, hout'⟩ i x y hi hx hy => ?_, fun h => ⟨_, rfl, congrArg some ?_⟩⟩
  · have hsame := congrArg (fun l => l[q.length + i]?) ((Option.some.inj hout).trans (Option.some.inj hout').symm)
    rw [hget xs hi hx, hget ys hi hy] at hsame
    exact (byte_eq_iff (hunit hx hy)).1 (Option.some.inj hsame)
  · have hbytes : (ys.map (Spelling.byte unicodeMap)).take (decodedOutSize - q.length) =
        (xs.map (Spelling.byte unicodeMap)).take (decodedOutSize - q.length) := by
      refine List.ext_getElem? fun i => ?_
      by_cases hi : i < decodedOutSize - q.length
      · rw [List.getElem?_take_of_lt hi, List.getElem?_take_of_lt hi, List.getElem?_map,
          List.getElem?_map]
        cases hx : xs[i]? with
        | none =>
          rw [List.getElem?_eq_none (by rw [← hlength]; exact List.getElem?_eq_none_iff.1 hx)]
        | some x =>
          obtain ⟨y, hy⟩ : ∃ y, ys[i]? = some y :=
            ⟨_, List.getElem?_eq_getElem (hlength ▸ (List.getElem?_eq_some_iff.1 hx).1)⟩
          rw [hy]
          exact congrArg some ((byte_eq_iff (hunit hx hy)).2 (h i x y (by omega) hx hy)).symm
      · rw [List.getElem?_take_eq_none (by omega), List.getElem?_take_eq_none (by omega)]
    rw [List.take_append, List.take_append, List.take_append, List.take_append, hbytes, List.length_append,
      List.length_append, List.length_map, List.length_map, hlength]

/-- `unescape("A\x42")` and `unescape("%41%u0042")`. -/
theorem unescaped_eq_iff_letters :
    ∃ out, unescaped none ([] ++ arguments [chr '"'] [chr '"'] [] [⟨0x41, .raw, fun _ => true, rfl⟩,
        ⟨0x42, .backslash, fun _ => true, (by decide : 0x42 < 256)⟩]) ([] : List Byte).length
        (fun _ => 0) ⟨0, 1, 0⟩ = some out ∧
      unescaped none ([] ++ arguments [chr '"'] [chr '"'] []
        [⟨0x41, .percent, fun _ => true, (by decide : 0x41 < 256)⟩,
          ⟨0x42, .upercent, fun _ => true, (by decide : 0x42 < 65536)⟩]) ([] : List Byte).length
        (fun _ => 0) ⟨0, 1, 0⟩ = some out := by
  have hquote : ∀ b ∈ [chr '"'], b = chr '"' ∨ b = chr '\'' := by simp
  refine (unescaped_eq_iff hquote hquote ?_ [] [] (fun _ => 0) ⟨0, 1, 0⟩).2 fun i x y _ hx _ => Or.inl ?_
  · rfl
  have hmem := List.mem_of_getElem? hx
  simp only [List.mem_cons, List.not_mem_nil, or_false] at hmem
  obtain rfl | rfl := hmem <;> decide

/-- `%u0141`: the map is asked; `\u0141`: the last byte is taken. -/
theorem upercent_ne_ubackslash :
    ¬∃ out, unescaped none ([] ++ arguments [] [] []
        [⟨0x141, .upercent, fun _ => false, (by decide : 0x141 < 65536)⟩]) ([] : List Byte).length
        (fun _ => 0) ⟨0, 1, 0⟩ = some out ∧
      unescaped none ([] ++ arguments [] [] []
        [⟨0x141, .ubackslash, fun _ => false, (by decide : 0x141 < 65536)⟩]) ([] : List Byte).length
        (fun _ => 0) ⟨0, 1, 0⟩ = some out := by
  have hnil : ∀ b ∈ ([] : List Byte), b = chr '"' ∨ b = chr '\'' := by simp
  rw [unescaped_arguments hnil hnil, unescaped_arguments hnil hnil]
  rintro ⟨out, hpercent, hbackslash⟩
  exact absurd (hpercent.trans hbackslash.symm) (by decide)

end Calls

end Snort.Jsnorm
