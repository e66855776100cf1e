import Mathlib.Data.BitVec
import Snort.Jsnorm.Tables

/-!
# Javascript normalization: `util_jsnorm.c`

`JSNormalizeDecode` looks for calls of `unescape` and its kind and of `String.fromCharCode`, decodes their
arguments into `decoded_out`, which all of them share, and copies the result to its own output.

Accesses are checked: an index outside its array, a length beyond the size of an output and a source
pointer outside the source give `none`.  Pointers are offsets.  `char` is signed; `toupper` and `isspace`
are those of the C locale, and `toupper` returns unchanged what is no letter.
-/

namespace Snort.Jsnorm

open FallThrough (find)

abbrev Byte := BitVec 8

abbrev U16 := BitVec 16

def maxBuf : ℕ := 8

/-- `sizeof(decoded_out)`. -/
def decodedOutSize : ℕ := 6335

/-- `NON_ASCII_CHAR`. -/
def nonAsciiChar : ℤ := 0xff

def alertSpacesExceeded : U16 := 0x1

def alertLevelsExceeded : U16 := 0x2

def alertMixedEncodings : U16 := 0x4

/-- The return values. -/
inductive Ret
  | ok
  | quit
  | inv
  deriving DecidableEq

/-- `JSState`. -/
structure JSState where
  allowedSpaces : ℤ
  allowedLevels : ℤ
  alerts : U16

/-! ### Characters -/

def chr (c : Char) : Byte := BitVec.ofNat 8 c.toNat

def isspace (c : ℤ) : Bool := 9 ≤ c && c ≤ 13 || c = 32

def toupper (c : ℤ) : ℤ := if 97 ≤ c ∧ c ≤ 122 then c - 32 else c

/-- `valid_chars[uc]`. -/
def validChars (uc : ℤ) : Option ℕ :=
  if 0 ≤ uc ∧ uc < 256 then
    if 48 ≤ uc ∧ uc < 56 then some (isHex ||| isOct ||| isDec)
    else if 56 ≤ uc ∧ uc < 58 then some (isHex ||| isDec)
    else if 65 ≤ uc ∧ uc < 71 then some isHex
    else if 97 ≤ uc ∧ uc < 103 then some isHex
    else some 0
  else none

/-- `hex_lookup[c]`; -1 is `INVALID_HEX_VAL`. -/
def hexLookup (c : ℤ) : Option ℤ :=
  if 0 ≤ c ∧ c < 256 then
    if 48 ≤ c ∧ c < 58 then some (c - 48)
    else if 65 ≤ c ∧ c < 71 then some (c - 55)
    else if 97 ≤ c ∧ c < 103 then some (c - 87)
    else some (-1)
  else none

/-- The event is a character. -/
def isChar (uc : ℤ) (event : ℕ) : Bool := event = uc

/-- The event is a character or a class that it belongs to. -/
def isIndexed (uc : ℤ) (value event : ℕ) : Bool :=
  isChar uc event || value ≠ 0 && event &&& value = event

/-- `CheckWSExceeded`. -/
def checkWSExceeded (js : JSState) (numSpaces : U16) : JSState :=
  if js.allowedSpaces ≠ 0 ∧ js.allowedSpaces < numSpaces.toNat then
    { js with alerts := js.alerts ||| alertSpacesExceeded }
  else js

/-- More than one encoding has been met. -/
def checkMixed (js : JSState) (alert : U16) : JSState :=
  if alert ≠ alert &&& -alert then { js with alerts := js.alerts ||| alertMixedEncodings } else js

/-! ### Outputs -/

/-- `Dbuf`. -/
structure Dbuf where
  data : ℕ → Byte
  size : ℕ
  len : ℕ

/-- A length is set. -/
def Dbuf.setLen (d : Dbuf) (n : ℕ) : Option Dbuf := if n ≤ d.size then some { d with len := n } else none

/-- A character is written behind the others, if there is room; the array has `cap` bytes. -/
def Dbuf.put (cap : ℕ) (d : Dbuf) (c : ℤ) : Option Dbuf :=
  if d.len < d.size then
    if d.len < cap then
      Dbuf.setLen { d with data := Function.update d.data d.len (BitVec.ofInt 8 c) } (d.len + 1)
    else none
  else d.setLen d.len

/-- `memcpy` behind what has been written. -/
def Dbuf.append (cap : ℕ) (d : Dbuf) (bytes : List Byte) : Option Dbuf :=
  if d.len + bytes.length ≤ cap then
    Dbuf.setLen
      { d with data := fun i => if d.len ≤ i then bytes.getD (i - d.len) (d.data i) else d.data i }
      (d.len + bytes.length)
  else none

/-- The output goes back to a place that was saved. -/
def Dbuf.rewind (d : Dbuf) (overwrite : Option ℕ) : Option Dbuf :=
  match overwrite with
  | some o => if o < d.len then d.setLen o else some d
  | none => some d

/-- A pointer into the source is moved. -/
def movePtr (srclen ptr : ℕ) : Option ℕ := if ptr ≤ srclen then some ptr else none

/-- `decoded_out[i]`. -/
def readOut (decodedOut : ℕ → Byte) (i : ℕ) : Option Byte :=
  if i < decodedOutSize then some (decodedOut i) else none

/-! ### Strings that are joined -/

/-- `PNormState`. -/
structure PNormState where
  fsm : ℕ
  fsmOther : ℕ
  prevEvent : Byte
  dQuotes : ℕ
  sQuotes : ℕ
  numSpaces : U16
  overwrite : Option ℕ
  output : Dbuf

/-- `WriteDecodedPNorm`. -/
def writeDecodedPNorm (s : PNormState) (c : ℤ) (js : JSState) : Option (PNormState × JSState) := do
  let output ← s.output.put decodedOutSize c
  return ({ s with numSpaces := 0, output := output }, checkWSExceeded js s.numSpaces)

/-- A quotation mark, with the count of its kind. -/
def pnormQuotes (s : PNormState) (quotes : ℕ) (c : ℤ) (js : JSState) :
    Option (ℕ × PNormState × JSState) := do
  if s.prevEvent = chr '\\' then
    return (quotes, ← writeDecodedPNorm { s with fsm := s.fsmOther } c js)
  else if quotes + 1 = 2 then
    return (0, ← writeDecodedPNorm { s with overwrite := some s.output.len } c js)
  else if s.prevEvent = chr '+' then
    let s := { s with prevEvent := 0 }
    if s.overwrite.any fun o => o < s.output.len then
      let output ← s.output.rewind s.overwrite
      return (quotes + 1, { s with output := output }, js)
    else return (quotes + 1, ← writeDecodedPNorm s c js)
  else return (quotes + 1, ← writeDecodedPNorm s c js)

/-- `PNorm_exec`. -/
def pnormExec (s : PNormState) (a : ActionPNorm) (c : ℤ) (js : JSState) :
    Option (PNormState × JSState) :=
  match a with
  | .dquotes => do
    let (n, s, js) ← pnormQuotes s s.dQuotes c js
    return ({ s with dQuotes := n }, js)
  | .nop => writeDecodedPNorm { s with prevEvent := BitVec.ofInt 8 c, overwrite := none } c js
  | .plus => writeDecodedPNorm { s with prevEvent := chr '+' } c js
  | .space => do
    let (s, js) ← if s.numSpaces = 0 then writeDecodedPNorm s c js else some (s, js)
    return ({ s with numSpaces := s.numSpaces + 1 }, js)
  | .squotes => do
    let (n, s, js) ← pnormQuotes s s.sQuotes c js
    return ({ s with sQuotes := n }, js)
  | .withinQuotes => writeDecodedPNorm { s with prevEvent := BitVec.ofInt 8 c } c js

/-- `PNorm_scan_fsm`. -/
def pnormScanFsm (s : PNormState) (c : ℤ) (js : JSState) : Option (PNormState × JSState) := do
  let uc := if isspace c then 32 else toupper c
  let c := if isspace c then 32 else c
  let m ← find plusNorm (isChar uc) s.fsm
  pnormExec { s with fsm := m.next, fsmOther := m.other } m.action c js

/-- The loop of `PNormDecode`, which reads the array that it writes. -/
def pnormLoop (srclen : ℕ) : ℕ → ℕ → PNormState → JSState → Option (PNormState × JSState)
  | 0, _, _, _ => none
  | fuel + 1, ptr, s, js =>
    if ptr < srclen then do
      let b ← readOut s.output.data ptr
      let (s, js) ← pnormScanFsm s b.toInt js
      pnormLoop srclen fuel (ptr + 1) s js
    else some (s, js)

/-- `PNormDecode`, in `decoded_out`: its bytes, how many there are, and the alerts. -/
def pnormDecode (decodedOut : ℕ → Byte) (srclen dstlen : ℕ) (js : JSState) :
    Option ((ℕ → Byte) × ℕ × JSState) := do
  let (s, js) ← pnormLoop srclen (srclen + 1) 0
    ⟨0, 0, 0, 0, 0, 0, none, ⟨decodedOut, dstlen, 0⟩⟩ js
  return (s.output.data, s.output.len, js)

/-! ### `unescape` -/

/-- `UnescapeState`. -/
structure UnescapeState where
  fsm : ℕ
  multipleLevels : Byte
  prevEvent : Byte
  alertFlags : U16
  numSpaces : U16
  iNorm : ℤ
  parenCount : ℕ
  overwrite : Option ℕ
  prevAction : ActionUnsc
  output : Dbuf

/-- `WriteDecodedUnescape`. -/
def writeDecodedUnescape (s : UnescapeState) (c : ℤ) (js : JSState) :
    Option (UnescapeState × JSState) := do
  let output ← s.output.put decodedOutSize c
  return ({ s with numSpaces := 0, output := output }, checkWSExceeded js s.numSpaces)

/-- `iNorm << 4 | hex_lookup[c]`; the four bits are clear. -/
def shiftHex (iNorm : ℤ) (c : ℤ) : Option ℤ := do
  let h ← hexLookup c
  return if h = -1 then -1 else iNorm * 16 + h

/-- The character of a code, where `%u` or `\u` give it. -/
def unicodeChar (unicodeMap : Option (ℕ → ℤ)) (iNorm : ℤ) : ℤ :=
  if 0xff < iNorm then
    match unicodeMap with
    | some map =>
      if iNorm ≤ 0xffff then
        if map iNorm.toNat = -1 then nonAsciiChar else map iNorm.toNat
      else nonAsciiChar
    | none => nonAsciiChar
  else iNorm

/-- An escape sequence ends: its character is written in its place. -/
def unescapeConv (s : UnescapeState) (alert : U16) (toChar : ℤ → ℤ) (c : ℤ) (js : JSState) :
    Option (UnescapeState × JSState) := do
  let iNorm ← shiftHex s.iNorm c
  let output ← s.output.rewind s.overwrite
  let (s, js) ← writeDecodedUnescape
    { s with
      prevAction := .backslash
      alertFlags := s.alertFlags ||| alert
      overwrite := none
      output := output }
    (toChar iNorm) js
  return ({ s with iNorm := 0 }, js)

/-- The branches of `Unescape_exec`; `prev_action = 0` is `UNESC_ACT_BACKSLASH`.  The flag: `prev_event`
is set behind it. -/
def unescapeAct (unicodeMap : Option (ℕ → ℤ)) (s : UnescapeState) (a : ActionUnsc) (c : ℤ)
    (js : JSState) : Option (UnescapeState × JSState × Ret × Bool) := do
  match a with
  | .backslash =>
    let (s, js) ← unescapeConv s 0x20 id c js
    return (s, js, .ok, true)
  | .conv =>
    let iNorm ← shiftHex s.iNorm c
    let (s, js) ← writeDecodedUnescape { s with prevAction := .backslash, iNorm := iNorm } c js
    return (s, js, .ok, true)
  | .nop =>
    let (s, js) ← writeDecodedUnescape
      { s with prevAction := .backslash, iNorm := 0, overwrite := none } c js
    return (s, js, .ok, true)
  | .paren =>
    let s := if s.prevAction = .unescape then
        { s with prevAction := .backslash, multipleLevels := s.multipleLevels + 1 }
      else s
    let s := { s with iNorm := 0 }
    let (s, js) ← if 0 < s.parenCount then writeDecodedUnescape s c js else some (s, js)
    return ({ s with parenCount := s.parenCount + 1 }, js, .ok, true)
  | .percent =>
    let (s, js) ← unescapeConv s 0x8 id c js
    return (s, js, .ok, true)
  | .quit =>
    let s := { s with prevAction := .backslash, iNorm := 0, overwrite := none }
    let s := { s with parenCount := s.parenCount - 1 }
    if s.parenCount = 0 then return (s, js, .quit, true)
    else
      let (s, js) ← writeDecodedUnescape s c js
      return (s, js, .ok, true)
  | .save =>
    let (s, js) ← writeDecodedUnescape
      { s with prevAction := .backslash, iNorm := 0, overwrite := some s.output.len } c js
    return (s, js, .ok, true)
  | .saveNop =>
    let (s, js) ← writeDecodedUnescape { s with prevAction := .backslash, iNorm := 0 } c js
    return (s, js, .ok, true)
  | .space =>
    let s := { s with iNorm := 0 }
    if s.prevEvent = chr '\'' ∨ s.prevEvent = chr '"' then
      let (s, js) ← writeDecodedUnescape s c js
      return (s, js, .ok, false)
    else
      let (s, js) ← if s.prevEvent ≠ chr ' ' then writeDecodedUnescape s c js else some (s, js)
      return ({ s with numSpaces := s.numSpaces + 1 }, js, .ok, true)
  | .ubackslash =>
    let (s, js) ← unescapeConv s 0x40 (unicodeChar unicodeMap) c js
    return (s, js, .ok, true)
  | .upercent =>
    let (s, js) ← unescapeConv s 0x10 (unicodeChar unicodeMap) c js
    return (s, js, .ok, true)
  | .unescape =>
    let (s, js) ← writeDecodedUnescape { s with prevAction := .unescape, iNorm := 0 } c js
    return (s, js, .ok, true)

/-- `Unescape_exec`. -/
def unescapeExec (unicodeMap : Option (ℕ → ℤ)) (s : UnescapeState) (a : ActionUnsc) (c : ℤ)
    (js : JSState) : Option (UnescapeState × JSState × Ret) := do
  let (s, js, ret, saves) ← unescapeAct unicodeMap s a c js
  return (if saves then { s with prevEvent := BitVec.ofInt 8 c } else s, js, ret)

/-- `Unescape_scan_fsm`. -/
def unescapeScanFsm (unicodeMap : Option (ℕ → ℤ)) (s : UnescapeState) (c : ℤ) (js : JSState) :
    Option (UnescapeState × JSState × Ret) := do
  let uc := toupper c
  if isspace c then unescapeExec unicodeMap s .space 32 js
  else
    let value ← validChars uc
    let m ← find unescapeNorm (isIndexed uc value) s.fsm
    unescapeExec unicodeMap { s with fsm := m.next } m.action c js

/-- The loop of `UnescapeDecode`; the source may be `decoded_out` itself. -/
def unescapeLoop (unicodeMap : Option (ℕ → ℤ)) (read : (ℕ → Byte) → ℕ → Option Byte) (srclen : ℕ) :
    ℕ → ℕ → UnescapeState → JSState → Option (ℕ × UnescapeState × JSState)
  | 0, _, _, _ => none
  | fuel + 1, ptr, s, js =>
    if ptr < srclen then do
      let b ← read s.output.data ptr
      let (s, js, ret) ← unescapeScanFsm unicodeMap s b.toInt js
      if ret ≠ .ok then return (ptr, s, js)
      else
        let ptr ← movePtr srclen (ptr + 1)
        unescapeLoop unicodeMap read srclen fuel ptr s js
    else some (ptr, s, js)

/-- The beginning of `UnescapeDecode`. -/
def UnescapeState.start (decodedOut : ℕ → Byte) : UnescapeState :=
  ⟨0, 1, 0, 0, 0, 0, 0, none, .backslash, ⟨decodedOut, decodedOutSize, 0⟩⟩

/-- `UnescapeDecode`: the source pointer, `decoded_out`, how many bytes of it, and the alerts. -/
def unescapeDecode (unicodeMap : Option (ℕ → ℤ)) (read : (ℕ → Byte) → ℕ → Option Byte)
    (srclen ptr : ℕ) (decodedOut : ℕ → Byte) (js : JSState) :
    Option (ℕ × (ℕ → Byte) × ℕ × JSState) := do
  let (ptr, s, js) ← unescapeLoop unicodeMap read srclen (srclen + 1) ptr (.start decodedOut) js
  let js := checkMixed js s.alertFlags
  let js := if js.allowedLevels < s.multipleLevels.toNat then
      { js with alerts := js.alerts ||| alertLevelsExceeded }
    else js
  let (decodedOut, bytesCopied, js) ← pnormDecode s.output.data s.output.len s.output.len js
  return (ptr, decodedOut, bytesCopied, js)

/-! ### `String.fromCharCode` -/

/-- `SFCCState`; `buf` are the bytes in front of `buflen`. -/
structure SFCCState where
  fsm : ℕ
  buf : List Byte
  curFlags : U16
  alertFlags : U16
  output : Dbuf

/-- The value of a digit. -/
def digitValue (b : Byte) : ℕ :=
  if 48 ≤ b.toNat ∧ b.toNat < 58 then b.toNat - 48
  else if 65 ≤ b.toNat ∧ b.toNat < 91 then b.toNat - 55
  else if 97 ≤ b.toNat ∧ b.toNat < 123 then b.toNat - 87
  else 36

/-- `strtoul`, where no white space, sign or `0x` stands in front of the digits. -/
def strtoul (base : ℕ) (buf : List Byte) : ℕ :=
  (buf.takeWhile fun b => digitValue b < base).foldl (fun n b => n * base + digitValue b) 0

/-- `ConvertToChar`, which puts a NUL behind the numeral. -/
def convertToChar (flags : U16) (buf : List Byte) : Option ℤ :=
  if buf.length < maxBuf then
    if flags &&& BitVec.ofNat 16 isDec ≠ 0 then some (strtoul 10 buf)
    else if flags &&& BitVec.ofNat 16 isOct ≠ 0 then some (strtoul 8 buf)
    else if flags &&& BitVec.ofNat 16 isHex ≠ 0 then some (strtoul 16 buf)
    else some 0
  else none

/-- `WriteDecodedSFCC`. -/
def writeDecodedSFCC (s : SFCCState) : Option SFCCState := do
  let output ←
    if s.output.len < s.output.size then
      if s.curFlags ≠ 0 then do
        let c ← convertToChar s.curFlags s.buf
        s.output.put decodedOutSize c
      else s.output.append decodedOutSize (s.buf.take (min (s.output.size - s.output.len) s.buf.length))
    else s.output.setLen s.output.len
  return { s with curFlags := 0, buf := [], output := output }

/-- A digit. -/
def sfccDigit (s : SFCCState) (c : ℤ) (flag : U16) : Option SFCCState :=
  if s.buf.length < maxBuf then some { s with buf := s.buf ++ [BitVec.ofInt 8 c], curFlags := flag }
  else writeDecodedSFCC { s with curFlags := 0 }

/-- The branches of `SFCC_exec`. -/
def sfccAct (s : SFCCState) (a : ActionSFCC) (c : ℤ) : Option (SFCCState × Ret) := do
  match a with
  | .nop => return (s, .ok)
  | .quit => return (← writeDecodedSFCC s, .quit)
  | .inv => return (← writeDecodedSFCC s, .inv)
  | .dec => return (← sfccDigit s c (BitVec.ofNat 16 isDec), .ok)
  | .oct => return (← sfccDigit s c (BitVec.ofNat 16 isOct), .ok)
  | .hex => return (← sfccDigit s c (BitVec.ofNat 16 isHex), .ok)
  | .comma | .space => return (← writeDecodedSFCC s, .ok)

/-- `SFCC_exec`. -/
def sfccExec (s : SFCCState) (a : ActionSFCC) (c : ℤ) : Option (SFCCState × Ret) := do
  let (s, ret) ← sfccAct s a c
  return ({ s with alertFlags := s.alertFlags ||| s.curFlags }, ret)

/-- `SFCC_scan_fsm`. -/
def sfccScanFsm (s : SFCCState) (c : ℤ) : Option (SFCCState × Ret) := do
  let uc := toupper c
  if isspace c then sfccExec s .space c
  else
    let value ← validChars uc
    let m ← find sfccNorm (isIndexed uc value) s.fsm
    sfccExec { s with fsm := m.next } m.action c

/-- The loop of `StringFromCharCodeDecode`. -/
def sfccLoop (src : List Byte) : ℕ → ℕ → SFCCState → Option (ℕ × SFCCState)
  | 0, _, _ => none
  | fuel + 1, ptr, s =>
    if ptr < src.length then do
      let b ← src[ptr]?
      let (s, ret) ← sfccScanFsm s b.toInt
      if ret ≠ .ok then return (if ret = .inv ∧ 1 < ptr then ptr - 1 else ptr, s)
      else
        let ptr ← movePtr src.length (ptr + 1)
        sfccLoop src fuel ptr s
    else some (ptr, s)

/-- `StringFromCharCodeDecode`: the source pointer, `decoded_out`, how many bytes of it, and the
alerts. -/
def stringFromCharCodeDecode (unicodeMap : Option (ℕ → ℤ)) (src : List Byte) (ptr : ℕ)
    (decodedOut : ℕ → Byte) (js : JSState) : Option (ℕ × (ℕ → Byte) × ℕ × JSState) := do
  let (ptr, s) ← sfccLoop src (src.length + 1) ptr ⟨0, [], 0, 0, ⟨decodedOut, decodedOutSize, 0⟩⟩
  let js := checkMixed js s.alertFlags
  let (_, decodedOut, bytesCopied, js) ←
    unescapeDecode unicodeMap readOut s.output.len 0 s.output.data js
  return (ptr, decodedOut, bytesCopied, js)

/-! ### The script -/

/-- `JSNormState`, with `decoded_out`. -/
structure JSNormState where
  fsm : ℕ
  prevEvent : Byte
  numSpaces : U16
  overwrite : Option ℕ
  dest : Dbuf
  decodedOut : ℕ → Byte

/-- `WriteJSNormChar`. -/
def writeJSNormChar (destlen : ℕ) (s : JSNormState) (c : ℤ) (js : JSState) :
    Option (JSNormState × JSState) := do
  let dest ← s.dest.put destlen c
  return ({ s with numSpaces := 0, dest := dest }, checkWSExceeded js s.numSpaces)

/-- `WriteJSNorm`, from `decoded_out`. -/
def writeJSNorm (destlen : ℕ) (s : JSNormState) (copyLen : ℕ) (js : JSState) :
    Option (JSNormState × JSState) := do
  let dest ←
    if 0 < copyLen then
      let copyLen := min (s.dest.size - s.dest.len) copyLen
      if copyLen ≤ decodedOutSize then
        s.dest.append destlen ((List.range copyLen).map s.decodedOut)
      else none
    else s.dest.setLen s.dest.len
  return ({ s with numSpaces := 0, dest := dest }, checkWSExceeded js s.numSpaces)

/-- The branches of `JSNorm_exec`, with the source pointer. -/
def jsnormAct (unicodeMap : Option (ℕ → ℤ)) (src : List Byte) (destlen : ℕ) (s : JSNormState)
    (a : ActionJSNorm) (c : ℤ) (ptr : ℕ) (js : JSState) : Option (JSNormState × ℕ × JSState × Ret) := do
  match a with
  | .nop =>
    let (s, js) ← writeJSNormChar destlen s c js
    return (s, ptr, js, .ok)
  | .save =>
    let (s, js) ← writeJSNormChar destlen { s with overwrite := some s.dest.len } c js
    return (s, ptr, js, .ok)
  | .space =>
    let (s, js) ← if s.prevEvent ≠ chr ' ' then writeJSNormChar destlen s c js else some (s, js)
    return ({ s with numSpaces := s.numSpaces + 1 }, ptr, js, .ok)
  | .unescape =>
    let dest ← s.dest.rewind s.overwrite
    let (ptr, decodedOut, bcopied, js) ←
      unescapeDecode unicodeMap (fun _ i => src[i]?) src.length ptr s.decodedOut js
    let (s, js) ← writeJSNorm destlen { s with dest := dest, decodedOut := decodedOut } bcopied js
    return (s, ptr, js, .ok)
  | .sfcc =>
    let dest ← s.dest.rewind s.overwrite
    let (ptr, decodedOut, bcopied, js) ← stringFromCharCodeDecode unicodeMap src ptr s.decodedOut js
    let (s, js) ← writeJSNorm destlen { s with dest := dest, decodedOut := decodedOut } bcopied js
    return (s, ptr, js, .ok)
  | .quit =>
    let (s, js) ← writeJSNormChar destlen s c js
    return (s, ptr, js, .quit)

/-- `JSNorm_exec`. -/
def jsnormExec (unicodeMap : Option (ℕ → ℤ)) (src : List Byte) (destlen : ℕ) (s : JSNormState)
    (a : ActionJSNorm) (c : ℤ) (ptr : ℕ) (js : JSState) : Option (JSNormState × ℕ × JSState × Ret) := do
  let (s, ptr, js, ret) ← jsnormAct unicodeMap src destlen s a c ptr js
  return ({ s with prevEvent := BitVec.ofInt 8 c }, ptr, js, ret)

/-- `JSNorm_scan_fsm`. -/
def jsnormScanFsm (unicodeMap : Option (ℕ → ℤ)) (src : List Byte) (destlen : ℕ) (s : JSNormState)
    (c : ℤ) (ptr : ℕ) (js : JSState) : Option (JSNormState × ℕ × JSState × Ret) := do
  if isspace c then jsnormExec unicodeMap src destlen s .space 32 ptr js
  else
    let m ← find javascriptNorm (isChar (toupper c)) s.fsm
    jsnormExec unicodeMap src destlen { s with fsm := m.next } m.action c ptr js

/-- The loop of `JSNormalizeDecode`. -/
def jsnormLoop (unicodeMap : Option (ℕ → ℤ)) (src : List Byte) (destlen : ℕ) :
    ℕ → JSNormState → ℕ → JSState → Option (JSNormState × ℕ × JSState × Ret)
  | 0, _, _, _ => none
  | fuel + 1, s, ptr, js =>
    if ptr < src.length then do
      let b ← src[ptr]?
      let (s, ptr, js, ret) ← jsnormScanFsm unicodeMap src destlen s b.toInt ptr js
      if ret ≠ .ok then return (s, ptr, js, ret)
      else
        let ptr ← movePtr src.length (ptr + 1)
        jsnormLoop unicodeMap src destlen fuel s ptr js
    else some (s, ptr, js, .ok)

/-- `dst`, `*bytes_copied`, `*ptr` and the alerts of `JSNormalizeDecode`. -/
structure JSNormResult where
  dst : ℕ → Byte
  bytesCopied : ℕ
  ptr : ℕ
  js : JSState

/-- `JSNormalizeDecode`, from the start of the source on; `dst` and `decodedOut` are what the arrays
hold before. -/
def jsNormalizeDecode (unicodeMap : Option (ℕ → ℤ)) (src : List Byte) (dst : ℕ → Byte) (destlen : ℕ)
    (decodedOut : ℕ → Byte) (js : JSState) : Option JSNormResult := do
  let (s, ptr, js, ret) ← jsnormLoop unicodeMap src destlen (src.length + 1)
    ⟨0, 0, 0, none, ⟨dst, destlen, 0⟩, decodedOut⟩ 0 js
  let ptr ← if ptr < src.length ∧ ret = .quit then movePtr src.length (ptr + 1) else some ptr
  return ⟨s.dest.data, s.dest.len, ptr, js⟩

end Snort.Jsnorm
