import Snort.Jsnorm.Unescape
import Snort.Lib.Buffer

/-!
# The arguments of `String.fromCharCode`

* `rawDigits_append`, `lastDigits_append`: a numeral behind another digit;
* `Decodes`: a state of the decoder behind some characters;
* `sfccScanFsm_step`: a round of `SFCC_scan_fsm`;
* **`sfccLoop_call`**: what the loop of `StringFromCharCodeDecode` decodes, and when it stays inside the
  arrays.
-/

namespace Snort.Jsnorm

open Buffer (drop_eq_cons)
open FallThrough

/-! ### Numerals -/

section Digits

variable {digits : List Byte} (b : Byte)

theorem length_lastDigits : (lastDigits digits).length = digits.length % 9 := by
  rw [lastDigits, List.length_drop]
  omega

theorem lastDigits_append (h : (lastDigits digits).length < maxBuf) :
    lastDigits (digits ++ [b]) = lastDigits digits ++ [b] ∧
      rawDigits (digits ++ [b]) = rawDigits digits := by
  rw [length_lastDigits] at h
  have hlt : digits.length % 9 < 8 := h
  have hdiv : (digits ++ [b]).length / 9 = digits.length / 9 := by
    rw [List.length_append, List.length_singleton]
    omega
  rw [lastDigits, rawDigits, hdiv, lastDigits, rawDigits]
  refine ⟨List.drop_append_of_le_length (by omega), ?_⟩
  refine List.flatMap_congr fun i hi => ?_
  have hi := List.mem_range.1 hi
  rw [List.drop_append_of_le_length (by omega), List.take_append_of_le_length]
  rw [List.length_drop]
  omega

/-- The ninth digit is dropped, and the eight before it are copied. -/
theorem rawDigits_append (h : (lastDigits digits).length = maxBuf) :
    lastDigits (digits ++ [b]) = [] ∧
      rawDigits (digits ++ [b]) = rawDigits digits ++ lastDigits digits := by
  have hlast := h
  rw [length_lastDigits] at h
  have hmod : digits.length % 9 = 8 := h
  have hdiv : (digits ++ [b]).length / 9 = digits.length / 9 + 1 := by
    rw [List.length_append, List.length_singleton]
    omega
  constructor
  · rw [lastDigits, hdiv, List.drop_eq_nil_iff, List.length_append, List.length_singleton]
    omega
  · rw [rawDigits, hdiv, List.range_succ, List.flatMap_append, List.flatMap_singleton]
    congr 1
    · refine List.flatMap_congr fun i hi => ?_
      have hi := List.mem_range.1 hi
      rw [List.drop_append_of_le_length (by omega), List.take_append_of_le_length]
      rw [List.length_drop]
      omega
    · rw [List.drop_append_of_le_length (by omega)]
      exact List.take_left' hlast

end Digits

/-! ### The rows -/

/-- The state of a numeral. -/
def Radix.fsm (r : Radix) : ℕ :=
  match r with
  | .start => S0 + 1
  | .zero => S0 + 2
  | .dec => S1
  | .oct => S2
  | .hex => S3

/-- The action for a digit. -/
def Radix.action (r : Radix) : ActionSFCC :=
  match r with
  | .start | .zero => .nop
  | .dec => .dec
  | .oct => .oct
  | .hex => .hex

/-- The action and the state behind a character. -/
def Radix.row (r : Radix) (b : Byte) : ActionSFCC × ℕ :=
  match r.step b with
  | some (r, isDigit) => (if isDigit then r.action else .nop, r.fsm)
  | none =>
    if b = chr ',' then (.comma, S0 + 1)
    else if b = chr ')' then (.quit, S0 + 1)
    else (.inv, S4 + 1)

theorem find_sfccNorm : ∀ r ∈ [Radix.start, .zero, .dec, .oct, .hex], ∀ n : ℕ, n < 128 →
    (validChars (toupper n)).bind (fun v => (find sfccNorm (isIndexed (toupper n) v) r.fsm).map
      fun m => (m.action, m.next)) = some (r.row (BitVec.ofNat 8 n)) := by
  decide +kernel


/-! ### The state of the decoder -/

/-- The bytes of an output. -/
structure Holds (d : Dbuf) (out : List Byte) : Prop where
  size : d.size = decodedOutSize
  len : d.len = out.length
  le : out.length ≤ decodedOutSize
  data : ∀ k (hk : k < out.length), d.data k = out[k]

theorem Holds.put {d : Dbuf} {out : List Byte} (h : Holds d out) (hroom : out.length < decodedOutSize)
    (c : ℤ) : ∃ d', d.put decodedOutSize c = some d' ∧ Holds d' (out ++ [BitVec.ofInt 8 c]) := by
  obtain ⟨hsize, hlen, hle, hdata⟩ := h
  have hset := Dbuf.setLen_eq
    { d with data := Function.update d.data d.len (BitVec.ofInt 8 c) } (n := d.len + 1)
    (show d.len + 1 ≤ d.size by omega)
  unfold Dbuf.put
  rw [if_pos (by omega), if_pos (by omega), hset]
  refine ⟨_, rfl, hsize, by rw [List.length_append, ← hlen]; rfl, by simpa using hroom, fun k hk => ?_⟩
  rw [List.length_append, List.length_singleton] at hk
  show Function.update d.data d.len (BitVec.ofInt 8 c) k = _
  by_cases hlast : k = out.length
  · subst hlast
    rw [hlen, Function.update_self, List.getElem_concat_length rfl]
  · rw [Function.update_of_ne (by omega), List.getElem_append_left (by omega)]
    exact hdata k (by omega)

theorem Holds.append {d : Dbuf} {out : List Byte} (h : Holds d out) (bytes : List Byte)
    (hroom : out.length + bytes.length ≤ decodedOutSize) :
    ∃ d', d.append decodedOutSize bytes = some d' ∧ Holds d' (out ++ bytes) := by
  obtain ⟨hsize, hlen, hle, hdata⟩ := h
  have hset := Dbuf.setLen_eq
    { d with data := fun i => if d.len ≤ i then bytes.getD (i - d.len) (d.data i) else d.data i }
    (n := d.len + bytes.length) (show d.len + bytes.length ≤ d.size by omega)
  unfold Dbuf.append
  rw [if_pos (by omega), hset]
  refine ⟨_, rfl, hsize, by rw [List.length_append, ← hlen], by rwa [List.length_append],
    fun k hk => ?_⟩
  rw [List.length_append] at hk
  show (if d.len ≤ k then bytes.getD (k - d.len) (d.data k) else d.data k) = _
  by_cases hold : k < out.length
  · rw [if_neg (by omega), List.getElem_append_left hold]
    exact hdata k hold
  · rw [if_pos (by omega), List.getElem_append_right (by omega), hlen,
      List.getD_eq_getElem?_getD, List.getElem?_eq_getElem (by omega)]
    rfl

/-- A state of the decoder behind some digits of a numeral. -/
structure Decodes (s : SFCCState) (r : Radix) (digits out : List Byte) : Prop where
  buf : s.buf = lastDigits digits
  flags : s.curFlags = if lastDigits digits = [] then 0 else BitVec.ofNat 16 r.flag
  none : r.flag = 0 → digits = []
  output : Holds s.output ((out ++ rawDigits digits).take decodedOutSize)

/-- The next numeral begins. -/
theorem decodes_nil {s : SFCCState} {out : List Byte} (r : Radix) (hbuf : s.buf = [])
    (hflags : s.curFlags = 0) (hout : Holds s.output out) : Decodes s r [] out := by
  refine ⟨hbuf, hflags, fun _ => rfl, ?_⟩
  have hraw : out ++ rawDigits [] = out := List.append_nil out
  rwa [hraw, List.take_of_length_le hout.le]

section Decoder

variable {s : SFCCState} {r : Radix} {digits out : List Byte}

/-- The character of a numeral. -/
theorem convertToChar_eq (hflag : r.flag ≠ 0) {buf : List Byte} (hbuf : buf.length < maxBuf) :
    ∃ n : ℕ, convertToChar (BitVec.ofNat 16 r.flag) buf = some (n : ℤ) ∧
      BitVec.ofInt 8 n = charCode r buf := by
  unfold convertToChar
  rw [if_pos hbuf]
  cases r with
  | start => exact absurd rfl hflag
  | zero => exact absurd rfl hflag
  | dec => exact ⟨strtoul 10 buf, rfl, BitVec.ofInt_natCast _ _⟩
  | oct => exact ⟨strtoul 8 buf, rfl, BitVec.ofInt_natCast _ _⟩
  | hex => exact ⟨strtoul 16 buf, rfl, BitVec.ofInt_natCast _ _⟩

/-- `WriteDecodedSFCC` at the end of a numeral. -/
theorem writeDecodedSFCC_eq (h : Decodes s r digits out) :
    (endNumeral r digits out = none → writeDecodedSFCC s = none) ∧
    ∀ out', endNumeral r digits out = some out' → ∃ s', writeDecodedSFCC s = some s' ∧
      s'.buf = [] ∧ s'.curFlags = 0 ∧ s'.fsm = s.fsm ∧ Holds s'.output out' := by
  obtain ⟨hbuf, hflags, hnone, hout⟩ := h
  unfold endNumeral writeDecodedSFCC
  dsimp only
  generalize (out ++ rawDigits digits).take decodedOutSize = o at hout
  by_cases hfull : o.length = decodedOutSize
  · -- there is no room
    rw [if_pos (Or.inr hfull)]
    refine ⟨fun h => (nomatch h), fun out' hout' => ?_⟩
    obtain rfl := Option.some.inj hout'
    rw [if_neg (by rw [hout.len, hout.size]; omega), Dbuf.setLen_eq _ (by rw [hout.len, hout.size]; omega)]
    exact ⟨_, rfl, rfl, rfl, rfl, hout.size, hout.len, hout.le, hout.data⟩
  have hroom : o.length < decodedOutSize := lt_of_le_of_ne hout.le hfull
  rw [if_pos (show s.output.len < s.output.size by rw [hout.len, hout.size]; exact hroom)]
  by_cases hlast : lastDigits digits = []
  · rw [if_pos (Or.inl hlast)]
    rw [if_pos hlast] at hflags
    refine ⟨fun h => (nomatch h), fun out' hout' => ?_⟩
    obtain rfl := Option.some.inj hout'
    obtain ⟨d, happend, hd⟩ := hout.append [] hout.le
    rw [List.append_nil] at hd
    rw [hflags, if_neg (by decide), hbuf, hlast, List.take_nil, happend]
    exact ⟨_, rfl, rfl, rfl, rfl, hd⟩
  · rw [if_neg (by rintro (h | h); exacts [hlast h, hfull h])]
    rw [if_neg hlast] at hflags
    have hflag : r.flag ≠ 0 := fun hzero => hlast (by rw [hnone hzero]; rfl)
    have hne : s.curFlags ≠ 0 := by
      rw [hflags]
      cases r <;> first | exact absurd rfl hflag | decide
    rw [if_pos hne, hflags, hbuf]
    by_cases height : (lastDigits digits).length = maxBuf
    · rw [if_pos height]
      refine ⟨fun _ => ?_, fun _ h => (nomatch h)⟩
      unfold convertToChar
      rw [if_neg (by omega)]
      rfl
    · rw [if_neg height]
      refine ⟨fun h => (nomatch h), fun out' hout' => ?_⟩
      obtain rfl := Option.some.inj hout'
      have hlt : (lastDigits digits).length < maxBuf := by
        rw [length_lastDigits] at height ⊢
        unfold maxBuf at height ⊢
        omega
      obtain ⟨n, hconvert, hcode⟩ := convertToChar_eq hflag hlt
      obtain ⟨d, hput, hd⟩ := hout.put hroom n
      rw [hcode] at hd
      rw [hconvert, Option.bind_eq_bind, Option.bind_some, hput]
      exact ⟨_, rfl, rfl, rfl, rfl, hd⟩

/-- A digit. -/
theorem sfccDigit_eq (h : Decodes s r digits out) {r' : Radix} (hflag : r'.flag ≠ 0) (b : Byte) :
    ∃ s', sfccDigit s b.toInt (BitVec.ofNat 16 r'.flag) = some s' ∧ s'.fsm = s.fsm ∧
      Decodes s' r' (digits ++ [b]) out := by
  obtain ⟨hbuf, hflags, hnone, hout⟩ := h
  have hbyte : BitVec.ofInt 8 b.toInt = b := BitVec.ofInt_toInt
  unfold sfccDigit
  rw [hbuf]
  by_cases hlt : (lastDigits digits).length < maxBuf
  · obtain ⟨hlast, hraw⟩ := lastDigits_append b hlt
    rw [if_pos hlt, hbyte]
    refine ⟨_, rfl, rfl, hlast.symm, ?_, fun hzero => absurd hzero hflag, hraw ▸ hout⟩
    rw [hlast, if_neg (by simp)]
  · have height : (lastDigits digits).length = maxBuf := by
      rw [length_lastDigits] at hlt ⊢
      unfold maxBuf at hlt ⊢
      omega
    obtain ⟨hlast, hraw⟩ := rawDigits_append b height
    rw [if_neg hlt]
    have hfinish : ∀ d, Holds d ((out ++ rawDigits (digits ++ [b])).take decodedOutSize) →
        Decodes { s with curFlags := 0, buf := [], output := d } r' (digits ++ [b]) out := fun d hd =>
      ⟨hlast.symm, (if_pos hlast).symm, fun hzero => absurd hzero hflag, hd⟩
    rw [hraw, ← List.append_assoc, List.take_append] at hfinish
    unfold writeDecodedSFCC
    dsimp only
    have hlength := List.length_take (i := decodedOutSize) (l := out ++ rawDigits digits)
    by_cases hroom : s.output.len < s.output.size
    · rw [hout.len, hout.size] at hroom
      rw [if_pos (by rw [hout.len, hout.size]; exact hroom), if_neg (by decide)]
      obtain ⟨d, happend, hd⟩ := hout.append ((lastDigits digits).take
        (min (s.output.size - s.output.len) (lastDigits digits).length)) (by
          have hle := List.length_take_le
            (min (s.output.size - s.output.len) (lastDigits digits).length) (lastDigits digits)
          rw [hout.len, hout.size] at hle ⊢
          omega)
      rw [happend]
      refine ⟨_, rfl, rfl, hfinish d ?_⟩
      rw [hout.len, hout.size, hlength] at hd
      rw [hlength] at hroom
      rw [show min decodedOutSize (out ++ rawDigits digits).length = (out ++ rawDigits digits).length by
        omega] at hd
      rwa [List.take_eq_take_min (i := decodedOutSize - _)]
    · rw [hout.len, hout.size] at hroom
      rw [if_neg (by rw [hout.len, hout.size]; exact hroom),
        Dbuf.setLen_eq _ (by rw [hout.len, hout.size]; exact hout.le)]
      refine ⟨_, rfl, rfl, hfinish _ ?_⟩
      rw [show decodedOutSize - (out ++ rawDigits digits).length = 0 by omega, List.take_zero,
        List.append_nil]
      exact ⟨hout.size, hout.len, hout.le, hout.data⟩


/-! ### A round of `SFCC_scan_fsm` -/

/-- The row for a character of the arguments. -/
theorem find_row {b : Byte} (hb : isAscii b = true) (r : Radix) :
    ∃ v m, validChars (toupper b.toInt) = some v ∧
      find sfccNorm (isIndexed (toupper b.toInt) v) r.fsm = some m ∧
      (m.action, m.next) = r.row b := by
  obtain ⟨hint, hlt⟩ := toInt_of_isAscii hb
  have hrow := find_sfccNorm r (by cases r <;> decide) b.toNat hlt
  rw [← hint, BitVec.ofNat_toNat, BitVec.setWidth_eq] at hrow
  obtain ⟨v, hvalid, hrow⟩ := Option.bind_eq_some_iff.1 hrow
  obtain ⟨m, hfind, hrow⟩ := Option.map_eq_some_iff.1 hrow
  exact ⟨v, m, hvalid, hfind, hrow⟩

theorem sfccScanFsm_notAscii {b : Byte} (hb : isAscii b = false) : sfccScanFsm s b.toInt = none := by
  have hneg := toInt_of_not_isAscii hb
  unfold sfccScanFsm
  dsimp only
  rw [isspace_of_neg hneg, if_neg Bool.false_ne_true, validChars_of_neg hneg]
  rfl

/-- A round with a character that is no white space. -/
theorem sfccScanFsm_row {b : Byte} (hb : isAscii b = true) (hblank : blank b = false)
    (hfsm : s.fsm = r.fsm) :
    sfccScanFsm s b.toInt = sfccExec { s with fsm := (r.row b).2 } (r.row b).1 b.toInt := by
  obtain ⟨v, m, hvalid, hfind, hrow⟩ := find_row hb r
  unfold sfccScanFsm
  dsimp only
  rw [show isspace b.toInt = false from hblank, if_neg Bool.false_ne_true, hvalid, Option.bind_eq_bind,
    Option.bind_some, hfsm, hfind, Option.bind_eq_bind, Option.bind_some, ← hrow]

theorem sfccScanFsm_blank (h : Decodes s r digits out) {b : Byte} (hblank : blank b = true) :
    (endNumeral r digits out = none → sfccScanFsm s b.toInt = none) ∧
    ∀ out', endNumeral r digits out = some out' → ∃ s', sfccScanFsm s b.toInt = some (s', .ok) ∧
      s'.fsm = s.fsm ∧ Decodes s' r [] out' := by
  obtain ⟨hnone, hsome⟩ := writeDecodedSFCC_eq h
  unfold sfccScanFsm
  dsimp only
  rw [show isspace b.toInt = true from hblank, if_pos rfl]
  refine ⟨fun hend => ?_, fun out' hend => ?_⟩
  · unfold sfccExec sfccAct
    dsimp only
    rw [hnone hend]
    rfl
  · obtain ⟨s', hwrite, hbuf, hflags, hfsm, hout⟩ := hsome out' hend
    unfold sfccExec sfccAct
    dsimp only
    rw [hwrite]
    exact ⟨_, rfl, hfsm, decodes_nil r hbuf hflags hout⟩

theorem sfccScanFsm_step (h : Decodes s r digits out) (hfsm : s.fsm = r.fsm) {b : Byte}
    (hb : isAscii b = true) (hblank : blank b = false) {r' : Radix} {isDigit : Bool}
    (hstep : r.step b = some (r', isDigit)) :
    ∃ s', sfccScanFsm s b.toInt = some (s', .ok) ∧ s'.fsm = r'.fsm ∧
      Decodes s' r' (if isDigit then digits ++ [b] else digits) out := by
  rw [sfccScanFsm_row hb hblank hfsm, Radix.row, hstep]
  dsimp only
  have hcases : isDigit = true ∧ r'.flag ≠ 0 ∨ isDigit = false ∧ r.flag = 0 := by
    unfold Radix.step at hstep
    cases r <;> dsimp only at hstep <;> split_ifs at hstep <;>
      obtain ⟨rfl, rfl⟩ := Prod.mk.inj (Option.some.inj hstep) <;> decide
  obtain ⟨rfl, hflag⟩ | ⟨rfl, hflag⟩ := hcases
  · obtain ⟨s', hdigit, hfsm', hdecodes⟩ := sfccDigit_eq (s := { s with fsm := r'.fsm })
      ⟨h.buf, h.flags, h.none, h.output⟩ hflag b
    have hact : sfccAct { s with fsm := r'.fsm } r'.action b.toInt = some (s', .ok) := by
      cases r' <;> first | exact absurd rfl hflag | exact congrArg (fun x => x.bind fun s => some (s, Ret.ok)) hdigit
    unfold sfccExec
    rw [if_pos rfl, hact]
    exact ⟨_, rfl, hfsm', hdecodes.buf, hdecodes.flags, hdecodes.none, hdecodes.output⟩
  · obtain rfl := h.none hflag
    have hzero : s.curFlags = 0 := h.flags.trans (if_pos rfl)
    simp only [Bool.false_eq_true, if_false]
    exact ⟨_, rfl, rfl, h.buf, hzero.trans (if_pos rfl).symm, fun _ => rfl, h.output⟩


/-- A round with a character that has no place in a numeral. -/
theorem sfccScanFsm_end (h : Decodes s r digits out) (hfsm : s.fsm = r.fsm) {b : Byte}
    (hb : isAscii b = true) (hblank : blank b = false) (hstep : r.step b = none) :
    (endNumeral r digits out = none → sfccScanFsm s b.toInt = none) ∧
    ∀ out', endNumeral r digits out = some out' → ∃ s', sfccScanFsm s b.toInt =
        some (s', if b = chr ',' then .ok else if b = chr ')' then .quit else .inv) ∧
      (b = chr ',' → s'.fsm = Radix.start.fsm) ∧ Holds s'.output out' ∧
      Decodes s' .start [] out' := by
  rw [sfccScanFsm_row hb hblank hfsm, Radix.row, hstep]
  dsimp only
  have hexec : ∀ (i : ℕ) (a : ActionSFCC) (ret : Ret),
      (∀ t, sfccAct t a b.toInt = (writeDecodedSFCC t).bind fun t => some (t, ret)) →
      (endNumeral r digits out = none → sfccExec { s with fsm := i } a b.toInt = none) ∧
      ∀ out', endNumeral r digits out = some out' → ∃ s',
        sfccExec { s with fsm := i } a b.toInt = some (s', ret) ∧ s'.fsm = i ∧
          Holds s'.output out' ∧ Decodes s' .start [] out' := by
    intro i a ret hact
    obtain ⟨hnone, hsome⟩ := writeDecodedSFCC_eq (s := { s with fsm := i })
      ⟨h.buf, h.flags, h.none, h.output⟩
    unfold sfccExec
    rw [hact]
    refine ⟨fun hend => ?_, fun out' hend => ?_⟩
    · rw [hnone hend]
      rfl
    · obtain ⟨s', hwrite, hbuf, hflags, hfsm, hout⟩ := hsome out' hend
      rw [hwrite]
      exact ⟨_, rfl, hfsm, hout, decodes_nil .start hbuf hflags hout⟩
  split_ifs with hcomma hclose
  · obtain ⟨hnone, hsome⟩ := hexec (S0 + 1) .comma .ok fun _ => rfl
    refine ⟨hnone, fun out' hend => ?_⟩
    obtain ⟨s', hrun, hfsm', hdecodes⟩ := hsome out' hend
    exact ⟨s', hrun, fun _ => hfsm', hdecodes⟩
  · obtain ⟨hnone, hsome⟩ := hexec (S0 + 1) .quit .quit fun _ => rfl
    refine ⟨hnone, fun out' hend => ?_⟩
    obtain ⟨s', hrun, -, hdecodes⟩ := hsome out' hend
    exact ⟨s', hrun, fun h => absurd h hcomma, hdecodes⟩
  · obtain ⟨hnone, hsome⟩ := hexec (S4 + 1) .inv .inv fun _ => rfl
    refine ⟨hnone, fun out' hend => ?_⟩
    obtain ⟨s', hrun, -, hdecodes⟩ := hsome out' hend
    exact ⟨s', hrun, fun h => absurd h hcomma, hdecodes⟩

end Decoder

/-! ### The loop of `StringFromCharCodeDecode` -/

/-- A run that stops where the call ends, with its bytes; it comes to the end of the source if the call
does not end. -/
def Decoded (srclen : ℕ) (run : Option (ℕ × SFCCState)) : Option (Option (List Byte × List Byte)) → Prop
  | none => run = none
  | some none => ∃ s, run = some (srclen, s)
  | some (some (out, rest)) => ∃ s, run = some (stopAt srclen (some rest), s) ∧ Holds s.output out

/-- **What the loop decodes**: the bytes of the numerals, up to where the call ends. -/
theorem sfccLoop_decoded {src l : List Byte} :
    ∀ {fuel ptr : ℕ} {r : Radix} {digits out : List Byte} {s : SFCCState}, src.drop ptr = l →
      1 < ptr → ptr ≤ src.length → l.length < fuel → s.fsm = r.fsm → Decodes s r digits out →
      Decoded src.length (sfccLoop src fuel ptr s) (charCodes r digits out l) := by
  induction l with
  | nil =>
    intro fuel ptr r digits out s hl _ hptr hfuel _ _
    obtain ⟨fuel, rfl⟩ := Nat.exists_eq_add_of_lt hfuel
    have hend : ptr = src.length := hptr.antisymm (List.drop_eq_nil_iff.1 hl)
    rw [sfccLoop, if_neg (by omega), hend]
    exact ⟨s, rfl⟩
  | cons b l ih =>
    intro fuel ptr r digits out s hl hone hptr hfuel hfsm h
    obtain ⟨hlength, hget, hl'⟩ := drop_eq_cons hl
    rw [List.length_cons] at hfuel
    obtain ⟨fuel, rfl⟩ := Nat.exists_eq_add_of_le' (show 1 ≤ fuel by omega)
    rw [sfccLoop, if_pos (by omega), hget, Option.bind_eq_bind, Option.bind_some, charCodes]
    cases hb : isAscii b with
    | false =>
      rw [sfccScanFsm_notAscii hb, if_pos rfl]
      exact rfl
    | true =>
      rw [if_neg (by simp)]
      -- the next round
      have hgo : ∀ {s' : SFCCState} {r' : Radix} {digits' out' : List Byte}, s'.fsm = r'.fsm →
          Decodes s' r' digits' out' → Decoded src.length
            ((movePtr src.length (ptr + 1)).bind fun ptr => sfccLoop src fuel ptr s')
            (charCodes r' digits' out' l) := by
        intro s' r' digits' out' hfsm' h'
        rw [movePtr, if_pos (by omega), Option.bind_some]
        exact ih hl' (by omega) (by omega) (by omega) hfsm' h'
      cases hblank : blank b with
      | true =>
        obtain ⟨hnone, hsome⟩ := sfccScanFsm_blank h hblank
        rw [if_pos rfl]
        cases hend : endNumeral r digits out with
        | none =>
          rw [hnone hend]
          exact rfl
        | some out' =>
          obtain ⟨s', hscan, hfsm', h'⟩ := hsome out' hend
          rw [hscan]
          exact hgo (hfsm'.trans hfsm) h'
      | false =>
        rw [if_neg Bool.false_ne_true]
        cases hstep : r.step b with
        | some next =>
          obtain ⟨r', isDigit⟩ := next
          obtain ⟨s', hscan, hfsm', h'⟩ := sfccScanFsm_step h hfsm hb hblank hstep
          rw [hscan]
          exact hgo hfsm' h'
        | none =>
          obtain ⟨hnone, hsome⟩ := sfccScanFsm_end h hfsm hb hblank hstep
          cases hend : endNumeral r digits out with
          | none =>
            rw [hnone hend]
            exact rfl
          | some out' =>
            obtain ⟨s', hscan, hcomma, hout, h'⟩ := hsome out' hend
            rw [hscan]
            simp only [Option.bind_eq_bind, Option.bind_some]
            by_cases hb' : b = chr ','
            · rw [if_pos hb', if_pos hb']
              exact hgo (hcomma hb') h'
            · rw [if_neg hb', if_neg hb']
              by_cases hclose : b = chr ')'
              · rw [if_pos hclose, if_pos hclose]
                refine ⟨s', congrArg (fun i => some (i, s')) ?_, hout⟩
                show ptr = src.length - (l.length + 1)
                omega
              · rw [if_neg hclose, if_neg hclose]
                refine ⟨s', congrArg (fun i => some (i, s')) ?_, hout⟩
                show (if Ret.inv = Ret.inv ∧ 1 < ptr then ptr - 1 else ptr) =
                  src.length - (l.length + 1 + 1)
                rw [if_pos ⟨rfl, hone⟩]
                omega

/-- **What a call decodes**, from the opening parenthesis on. -/
theorem sfccLoop_call {src l : List Byte} {ptr : ℕ} (hl : src.drop ptr = chr '(' :: l) (hptr : 0 < ptr)
    (decodedOut : ℕ → Byte) :
    Decoded src.length
      (sfccLoop src (src.length + 1) ptr ⟨0, [], 0, 0, ⟨decodedOut, decodedOutSize, 0⟩⟩)
      (charCodes .start [] [] l) := by
  obtain ⟨hlength, hget, hl'⟩ := drop_eq_cons hl
  -- the parenthesis
  have hfirst : ∀ d : Dbuf, sfccScanFsm ⟨0, [], 0, 0, d⟩ (chr '(').toInt =
      some (⟨Radix.start.fsm, [], 0, 0 ||| 0, d⟩, .ok) := by
    intro d
    have hspace : isspace (chr '(').toInt = false := by decide
    have hvalid : validChars (toupper (chr '(').toInt) = some 0 := by decide
    have hfind : find sfccNorm (isIndexed (toupper (chr '(').toInt) 0) 0 =
        some ⟨ev '(', S0 + 1, S0 + 1, .nop⟩ := by rfl
    unfold sfccScanFsm
    dsimp only
    rw [hspace, if_neg Bool.false_ne_true, hvalid, Option.bind_eq_bind, Option.bind_some, hfind]
    rfl
  have hstart : Decodes ⟨Radix.start.fsm, [], 0, 0 ||| 0, ⟨decodedOut, decodedOutSize, 0⟩⟩ .start [] [] :=
    decodes_nil .start rfl rfl ⟨rfl, rfl, Nat.zero_le _, fun k hk => absurd hk (Nat.not_lt_zero k)⟩
  rw [sfccLoop, if_pos (by omega), hget, Option.bind_eq_bind, Option.bind_some, hfirst, movePtr,
    if_pos (by omega)]
  exact sfccLoop_decoded hl' (by omega) (by omega) (by omega) rfl hstart

/-- The bytes that have been decoded are the source of `UnescapeDecode`. -/
theorem Holds.source {d : Dbuf} {out : List Byte} (h : Holds d out) : Source readOut out 0 d.data := by
  intro k hk data hdata
  have hle := h.le
  rw [readOut, if_pos (by omega), hdata _ le_rfl, Nat.zero_add]
  exact congrArg some (h.data k hk)

variable (unicodeMap : Option (ℕ → ℤ)) (js : JSState)

/-- **Where `StringFromCharCodeDecode` stops**, from the opening parenthesis on, and when it stays inside
the arrays. -/
theorem stringFromCharCodeDecode_ptr {src l : List Byte} {ptr : ℕ} (hl : src.drop ptr = chr '(' :: l)
    (hptr : 0 < ptr) (decodedOut : ℕ → Byte) :
    (∀ r, stringFromCharCodeDecode unicodeMap src ptr decodedOut js = some r →
      ∃ stop, charCodes .start [] [] l = some stop ∧ r.1 = stopAt src.length (stop.map Prod.snd) ∧
        ∀ out rest, stop = some (out, rest) →
          unescapeSpan 0 false out ≠ none ∧ r.2.2.1 ≤ decodedOutSize) ∧
    ∀ out rest, charCodes .start [] [] l = some (some (out, rest)) → unescapeSpan 0 false out ≠ none →
      ∃ r, stringFromCharCodeDecode unicodeMap src ptr decodedOut js = some r := by
  have hloop := sfccLoop_call hl hptr decodedOut
  unfold stringFromCharCodeDecode
  cases hcodes : charCodes .start [] [] l with
  | none =>
    rw [hcodes] at hloop
    rw [show sfccLoop _ _ _ _ = none from hloop]
    exact ⟨fun _ hr => (nomatch hr), fun _ _ h => (nomatch h)⟩
  | some stop =>
    rw [hcodes] at hloop
    cases stop with
    | none =>
      obtain ⟨s, hrun⟩ := hloop
      rw [hrun, Option.bind_eq_bind, Option.bind_some]
      refine ⟨fun r hr => ⟨none, rfl, ?_, fun _ _ h => (nomatch h)⟩, fun _ _ h => (nomatch h)⟩
      obtain ⟨⟨p, out, n, js'⟩, -, hr⟩ := Option.bind_eq_some_iff.1 hr
      exact (congrArg Prod.fst (Option.some.inj hr)).symm
    | some stop =>
      obtain ⟨out, rest⟩ := stop
      obtain ⟨s, hrun, hout⟩ := hloop
      obtain ⟨hstops, hbound⟩ := unescapeDecode_ptr unicodeMap (checkMixed js s.alertFlags)
        ((Nat.zero_add _).trans hout.len.symm) hout.source
      rw [hrun, Option.bind_eq_bind, Option.bind_some]
      dsimp only
      cases hdecode : unescapeDecode unicodeMap readOut s.output.len 0 s.output.data
          (checkMixed js s.alertFlags) with
      | none =>
        rw [hdecode] at hstops
        have hspan : unescapeSpan 0 false out = none := Option.map_eq_none_iff.1 hstops.symm
        refine ⟨fun _ hr => (nomatch hr), fun out' rest' h hne => ?_⟩
        obtain ⟨rfl, rfl⟩ := Prod.mk.inj (Option.some.inj (Option.some.inj h))
        exact absurd hspan hne
      | some q =>
        rw [hdecode] at hstops
        have hspan : unescapeSpan 0 false out ≠ none := fun hnone => by
          rw [hnone] at hstops
          cases hstops
        refine ⟨fun r hr => ⟨some (out, rest), rfl, ?_, fun out' rest' h => ?_⟩, fun _ _ _ _ => ⟨_, rfl⟩⟩
        · exact (congrArg Prod.fst (Option.some.inj hr)).symm
        · obtain ⟨rfl, rfl⟩ := Prod.mk.inj (Option.some.inj h)
          rw [← Option.some.inj hr]
          exact ⟨hspan, hbound q hdecode⟩

end Snort.Jsnorm
