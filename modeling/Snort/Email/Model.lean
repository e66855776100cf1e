import Snort.Lib.CInt
import Snort.Lib.Buffer

/-!
# Decoding of e-mail attachments: `sf_email_attach_decode.c`

The body of an attachment arrives in packets.  A call decodes what the packets up to now have brought as
far as it can; what is left stays in the encode buffer, in front of the next packet.

* `sfStripCRLF`, `sfStripLWS` (`util_unfold.c`): the copy of a packet into the encode buffer;
* `sfBase64decode` (`sf_base64decode.c`), `sfQpdecode`, `sfUudecode`: the decoders;
* `base64Decode`, `qpDecode`, `uuDecode`: a call, and `decodeAll`, the calls for all packets.

The encode buffer is a memory, since `sf_uudecode` can read behind what a call has put there.  Both
buffers are allocated, and a packet has its first byte below its end.
-/

namespace Snort.Email

open Buffer

/-- A byte of the attachment. -/
abbrev Byte := BitVec 8

/-- The byte of a character. -/
def chr (c : Char) : Byte := BitVec.ofNat 8 c.toNat

/-- The bytes of a text. -/
def bytes (s : String) : List Byte := s.toList.map chr

/-- `MAX_BUF`. -/
def maxBuf : ℕ := 65535

/-! ### Copying a packet -/

/-- `sf_strip_CRLF`. -/
def sfStripCRLF : List Byte → ℕ → List Byte
  | [], _ => []
  | c :: cs, outbufSize =>
    if outbufSize = 0 then []
    else if c ≠ chr '\n' ∧ c ≠ chr '\r' then c :: sfStripCRLF cs (outbufSize - 1)
    else sfStripCRLF cs outbufSize

/-- A blank. -/
def isBlank (c : Byte) : Bool := c = chr ' ' ∨ c = chr '\t'

/-- The loop of `sf_strip_LWS`; the output is there in reverse order. -/
def stripLoop (outbufSize : ℕ) : List Byte → Bool → List Byte → List Byte
  | [], _, out => out
  | c :: cs, lws, out =>
    if outbufSize ≤ out.length then out
    else if c ≠ chr '\n' ∧ c ≠ chr '\r' then stripLoop outbufSize cs (isBlank c) (c :: out)
    else stripLoop outbufSize cs false (c :: if lws then out.dropWhile isBlank else out)

/-- `sf_strip_LWS`. -/
def sfStripLWS (inbuf : List Byte) (outbufSize : ℕ) : List Byte :=
  (stripLoop outbufSize inbuf false []).reverse

/-! ### Base64 -/

/-- `sf_decode64tab`. -/
def sfDecode64tab : List (BitVec 8) := [
    100, 100, 100, 100, 100, 100, 100, 100, 100, 100, 100, 100, 100, 100, 100, 100,
    100, 100, 100, 100, 100, 100, 100, 100, 100, 100, 100, 100, 100, 100, 100, 100,
    100, 100, 100, 100, 100, 100, 100, 100, 100, 100, 100, 62, 100, 100, 100, 63,
    52, 53, 54, 55, 56, 57, 58, 59, 60, 61, 100, 100, 100, 99, 100, 100,
    100, 0, 1, 2, 3, 4, 5, 6, 7, 8, 9, 10, 11, 12, 13, 14,
    15, 16, 17, 18, 19, 20, 21, 22, 23, 24, 25, 100, 100, 100, 100, 100,
    100, 26, 27, 28, 29, 30, 31, 32, 33, 34, 35, 36, 37, 38, 39, 40,
    41, 42, 43, 44, 45, 46, 47, 48, 49, 50, 51, 100, 100, 100, 100, 100]

/-- An entry of the table; the second half of it is filled with 100. -/
def tableval (c : Byte) : BitVec 8 := sfDecode64tab.getD c.toNat 100

/-- What a group of four characters does: the bytes it appends, and whether the loop goes on behind it. -/
def base64Group (a b c d : Byte) (room : ℕ) : Option (List Byte × Bool) :=
  if a = chr '=' ∨ b = chr '=' then none
  else
    let first := if 0 < room then [tableval a <<< 2 ||| tableval b >>> 4] else []
    if c ≠ chr '=' ∧ first.length < room then
      let second := first ++ [tableval b <<< 4 ||| tableval c >>> 2]
      if d ≠ chr '=' ∧ second.length < room then
        some (second ++ [tableval c <<< 6 ||| tableval d], true)
      else some (second, false)
    else some (first, false)

/-- The loop of `sf_base64decode`; `data` is what `base64data` holds of the current group. -/
def base64Loop (outbufSize maxBase64Chars : ℕ) :
    List Byte → (n : ℕ) → (data out : List Byte) → Option (List Byte)
  | [], _, _, out => some out
  | c :: cs, n, data, out =>
    if maxBase64Chars ≤ n then some out
    else if tableval c = 100 then base64Loop outbufSize maxBase64Chars cs n data out
    else
      match data with
      | [d0, d1, d2] =>
        match base64Group d0 d1 d2 c (outbufSize - out.length) with
        | none => none
        | some (bs, true) => base64Loop outbufSize maxBase64Chars cs (n + 1) [] (out ++ bs)
        | some (bs, false) => some (out ++ bs)
      | _ => base64Loop outbufSize maxBase64Chars cs (n + 1) (data ++ [c]) out

/-- `max_base64_chars`. -/
def maxBase64Chars (outbufSize : ℕ) : ℕ := CInt.u32 (outbufSize / 3 * 4 + 4)

/-- `sf_base64decode`; `none` where it returns -1. -/
def sfBase64decode (inbuf : List Byte) (outbufSize : ℕ) : Option (List Byte) :=
  base64Loop outbufSize (maxBase64Chars outbufSize) inbuf 0 [] []

/-! ### Quoted-printable -/

/-- The value of a hexadecimal digit, for the bytes that `isxdigit` accepts. -/
def xdigit (c : Byte) : Option ℕ :=
  if chr '0' ≤ c ∧ c ≤ chr '9' then some (c.toNat - 48)
  else if chr 'A' ≤ c ∧ c ≤ chr 'F' then some (c.toNat - 55)
  else if chr 'a' ≤ c ∧ c ≤ chr 'f' then some (c.toNat - 87)
  else none

/-- The loop of `sf_qpdecode`: what it writes, and what of `src` it has not read. -/
def qpLoop (dlen : ℕ) : (src dst : List Byte) → List Byte × List Byte
  | [], dst => (dst, [])
  | ch :: src, dst =>
    if dlen ≤ dst.length then (dst, ch :: src)
    else if ch = chr '=' then
      match src with
      | [] => (dst, [ch])
      | ch1 :: src1 =>
        if ch1 = chr '\n' then qpLoop dlen src1 dst
        else
          match src1 with
          | [] => (dst, [ch, ch1])
          | ch2 :: src2 =>
            if ch1 = chr '\r' ∧ ch2 = chr '\n' then qpLoop dlen src2 dst
            else
              match xdigit ch1, xdigit ch2 with
              | some h1, some h2 => qpLoop dlen src2 (dst ++ [BitVec.ofNat 8 (16 * h1 + h2)])
              | _, _ => qpLoop dlen (ch1 :: ch2 :: src2) (dst ++ [ch])
    else qpLoop dlen src (dst ++ [ch])

/-- `sf_qpdecode`: what it writes and `bytes_read`; `none` where it returns -1. -/
def sfQpdecode (src : List Byte) (dlen : ℕ) : Option (List Byte × ℕ) :=
  if src.length = 0 ∨ dlen = 0 then none
  else
    let r := qpLoop dlen src []
    some (r.1, src.length - r.2.length)

/-! ### Uuencode -/

/-- `UU_DECODE_CHAR`. -/
def uuDecodeChar (c : Byte) : BitVec 8 := (c - 0x20) &&& 0x3f

/-- The characters of a line, from `ptr` on, `length` of them to go. -/
def uuLine (src : ℕ → Byte) : (length ptr : ℕ) → (out : List Byte) → ℕ × List Byte
  | 0, ptr, out => (ptr, out)
  | 1, ptr, out =>
    (ptr + 1, out ++ [uuDecodeChar (src ptr) <<< 2 ||| uuDecodeChar (src (ptr + 1)) >>> 4])
  | 2, ptr, out =>
    (ptr + 2, out ++ [uuDecodeChar (src ptr) <<< 2 ||| uuDecodeChar (src (ptr + 1)) >>> 4,
      uuDecodeChar (src (ptr + 1)) <<< 4 ||| uuDecodeChar (src (ptr + 2)) >>> 2])
  | 3, ptr, out =>
    (ptr + 4, out ++ [uuDecodeChar (src ptr) <<< 2 ||| uuDecodeChar (src (ptr + 1)) >>> 4,
      uuDecodeChar (src (ptr + 1)) <<< 4 ||| uuDecodeChar (src (ptr + 2)) >>> 2,
      uuDecodeChar (src (ptr + 2)) <<< 6 ||| uuDecodeChar (src (ptr + 3))])
  | length + 4, ptr, out =>
    uuLine src length (ptr + 4)
      (out ++ [uuDecodeChar (src ptr) <<< 2 ||| uuDecodeChar (src (ptr + 1)) >>> 4,
        uuDecodeChar (src (ptr + 1)) <<< 4 ||| uuDecodeChar (src (ptr + 2)) >>> 2,
        uuDecodeChar (src (ptr + 2)) <<< 6 ||| uuDecodeChar (src (ptr + 3))])

/-- What `sf_uudecode` returns. -/
structure UuResult where
  bytesRead : ℕ
  out : List Byte
  beginFound : Bool
  endFound : Bool
  deriving DecidableEq

/-- The loop of `sf_uudecode`.  Every round but the last moves `ptr`, so `slen` rounds are enough. -/
def uuLoop (src : ℕ → Byte) (slen dlen : ℕ) :
    (rounds ptr : ℕ) → (sol : Bool) → (out : List Byte) → ℕ × List Byte × Bool
  | 0, ptr, _, out => (ptr, out, false)
  | rounds + 1, ptr, sol, out =>
    if ptr < slen ∧ out.length < dlen then
      if src ptr = chr '\n' then uuLoop src slen dlen rounds (ptr + 1) true out
      else if sol then
        let length := (uuDecodeChar (src ptr)).toNat
        if length = 0 then (ptr, out, false)
        else if length = 5 ∧ src ptr = chr 'e' then (ptr, out, true)
        else
          let length := min length (dlen - out.length) * 4 / 3
          if slen - (ptr + 1) < length then (ptr, out, false)
          else
            let r := uuLine src length (ptr + 1) out
            uuLoop src slen dlen rounds r.1 false r.2
      else uuLoop src slen dlen rounds (ptr + 1) false out
    else (ptr, out, false)

/-- `SnortStrnStr` for a single character: it gives up on a zero byte and does not look at the last of
the `slen` bytes. -/
def snortStrnChr (src : ℕ → Byte) (c : Byte) : (slen ptr : ℕ) → Option ℕ
  | 0, _ => none
  | 1, _ => none
  | slen + 2, ptr =>
    if src ptr = 0 then none else if src ptr = c then some ptr else snortStrnChr src c (slen + 1) (ptr + 1)

/-- The search for `begin` in the first five bytes. -/
def findsBegin (src : ℕ → Byte) : Bool :=
  src 0 = chr 'b' ∧ src 1 = chr 'e' ∧ src 2 = chr 'g' ∧ src 3 = chr 'i' ∧ src 4 = chr 'n'

/-- The end of `sf_uudecode`, with the loop started at `ptr`. -/
def uuResult (src : ℕ → Byte) (slen dlen ptr : ℕ) (endFound : Bool) : UuResult :=
  let r := uuLoop src slen dlen slen ptr true []
  let endFound := endFound || r.2.2
  ⟨if endFound then slen else r.1, r.2.1, true, endFound⟩

/-- `sf_uudecode`; `none` where it returns -1. -/
def sfUudecode (src : ℕ → Byte) (slen dlen : ℕ) (beginFound endFound : Bool) : Option UuResult :=
  if slen = 0 ∨ dlen = 0 then none
  else if beginFound then some (uuResult src slen dlen 0 endFound)
  else if slen < 5 then some ⟨0, [], false, endFound⟩
  else if findsBegin src then
    match snortStrnChr src (chr '\n') slen 0 with
    | none => some ⟨slen, [], true, endFound⟩
    | some ptr => some (uuResult src slen dlen ptr endFound)
  else none

/-! ### State -/

/-- `DecodeType`. -/
inductive DecodeType
  | none
  | b64
  | qp
  | uu
  | bitenc
  | all
  deriving DecidableEq

/-- `Base64_DecodeState`, `QP_DecodeState` and the first fields of `UU_DecodeState`. -/
structure DecodeState where
  encodeBytesRead : ℕ
  decodeBytesRead : ℕ
  encodeDepth : ℤ
  decodeDepth : ℤ
  deriving DecidableEq

/-- `Email_DecodeState`.  `prevEncodedBuf` is an offset in the encode buffer, and `decoded` the
`decoded_bytes` bytes at `decodePtr`. -/
structure EmailDecodeState where
  decodeType : DecodeType
  decodePresent : Bool
  prevEncodedBytes : ℕ
  prevEncodedBuf : Option ℕ
  decoded : List Byte
  encodeBuf : ℕ → Byte
  b64State : DecodeState
  qpState : DecodeState
  uuState : DecodeState
  beginFound : Bool
  endFound : Bool

/-- `SetEmailDecodeState`, with the buffer `data`. -/
def setEmailDecodeState (data : ℕ → Byte) (b64Depth qpDepth uuDepth : ℤ) : EmailDecodeState where
  decodeType := .none
  decodePresent := false
  prevEncodedBytes := 0
  prevEncodedBuf := none
  decoded := []
  encodeBuf := data
  b64State := ⟨0, 0, b64Depth, b64Depth⟩
  qpState := ⟨0, 0, qpDepth, qpDepth⟩
  uuState := ⟨0, 0, uuDepth, uuDepth⟩
  beginFound := false
  endFound := false

/-- `ResetEmailDecodeState`. -/
def resetEmailDecodeState (ds : EmailDecodeState) : EmailDecodeState :=
  { ds with
    beginFound := false, endFound := false, decoded := [], decodePresent := false,
    prevEncodedBytes := 0, prevEncodedBuf := none }

/-- `encode_avail`, of the given state. -/
def DecodeState.encodeAvail (s : DecodeState) : ℕ :=
  if s.encodeDepth = 0 then maxBuf else CInt.u32 (s.encodeDepth - s.encodeBytesRead)

/-- `decode_avail`. -/
def DecodeState.decodeAvail (s : DecodeState) : ℕ :=
  if s.encodeDepth = 0 then maxBuf else CInt.u32 (s.decodeDepth - s.decodeBytesRead)

/-- The counts after a call. -/
def DecodeState.read (s : DecodeState) (encoded decoded : ℕ) : DecodeState :=
  { s with
    encodeBytesRead := CInt.u32 (s.encodeBytesRead + encoded)
    decodeBytesRead := CInt.u32 (s.decodeBytesRead + decoded) }

/-! ### The calls -/

/-- The first part of a call: the undecoded bytes are brought to the front; `prev_bytes`. -/
def loadPrev (ds : EmailDecodeState) (encodeAvail : ℕ) : EmailDecodeState × ℕ :=
  let n := min ds.prevEncodedBytes encodeAvail
  match ds.prevEncodedBuf with
  | none => ({ ds with prevEncodedBytes := n }, 0)
  | some off => ({ ds with prevEncodedBytes := 0, encodeBuf := copyDown off n 0 ds.encodeBuf }, n)

/-- `Base64Decode`; on the left whether it returns `DECODE_SUCCESS`. -/
def base64Decode (packet : List Byte) (ds : EmailDecodeState) : Bool × EmailDecodeState :=
  if ds.b64State.encodeDepth < 0 then (false, ds)
  else if ds.b64State.encodeAvail = 0 ∨ ds.b64State.decodeAvail = 0 then
    (false, resetEmailDecodeState ds)
  else
    let (ds1, prevBytes) := loadPrev ds ds.b64State.encodeAvail
    let encodeAvail := ds.b64State.encodeAvail - prevBytes
    let stripped := sfStripCRLF packet encodeAvail
    let buf := write ds1.encodeBuf prevBytes stripped
    let size := stripped.length + prevBytes
    let i := size % 4
    let actEncodeSize := size - i
    let ds2 := { ds1 with
      encodeBuf := buf
      prevEncodedBytes := if i = 0 then ds1.prevEncodedBytes else i
      prevEncodedBuf := if i = 0 then ds1.prevEncodedBuf else some actEncodeSize }
    match sfBase64decode (readBuf buf 0 actEncodeSize) ds.b64State.decodeAvail with
    | none => (false, resetEmailDecodeState ds2)
    | some out =>
      if out.length = 0 ∧ encodeAvail = 0 then (false, resetEmailDecodeState ds2)
      else (true, { ds2 with
        decodePresent := true
        decoded := out
        b64State := ds2.b64State.read actEncodeSize out.length })

/-- `QPDecode`. -/
def qpDecode (packet : List Byte) (ds : EmailDecodeState) : Bool × EmailDecodeState :=
  if ds.qpState.encodeDepth < 0 then (false, ds)
  else if ds.qpState.encodeAvail = 0 ∨ ds.qpState.decodeAvail = 0 then
    (false, resetEmailDecodeState ds)
  else
    let (ds1, prevBytes) := loadPrev ds ds.qpState.encodeAvail
    let encodeAvail := ds.qpState.encodeAvail - prevBytes
    let stripped := sfStripLWS packet encodeAvail
    let buf := write ds1.encodeBuf prevBytes stripped
    let size := stripped.length + prevBytes
    let ds2 := { ds1 with encodeBuf := buf }
    match sfQpdecode (readBuf buf 0 size) ds.qpState.decodeAvail with
    | none => (false, resetEmailDecodeState ds2)
    | some (out, bytesRead) =>
      if out.length = 0 ∧ encodeAvail = 0 then (false, resetEmailDecodeState ds2)
      else (true, { ds2 with
        prevEncodedBytes := if bytesRead < size then size - bytesRead else ds2.prevEncodedBytes
        prevEncodedBuf := if bytesRead < size then some bytesRead else ds2.prevEncodedBuf
        decodePresent := true
        decoded := out
        qpState := ds2.qpState.read (min bytesRead size) out.length })

/-- `UUDecode`. -/
def uuDecode (packet : List Byte) (ds : EmailDecodeState) : Bool × EmailDecodeState :=
  if ds.uuState.encodeDepth < 0 then (false, { ds with beginFound := false })
  else if ds.uuState.encodeAvail = 0 ∨ ds.uuState.decodeAvail = 0 then
    (false, resetEmailDecodeState ds)
  else
    let (ds1, prevBytes) := loadPrev ds ds.uuState.encodeAvail
    let encodeAvail := ds.uuState.encodeAvail - prevBytes
    let copied := packet.take encodeAvail
    -- `SafeMemcpy` refuses to copy nothing
    if 0 < encodeAvail ∧ copied.length = 0 then (false, resetEmailDecodeState ds1)
    else
      let buf := write ds1.encodeBuf prevBytes copied
      let size := copied.length + prevBytes
      let ds2 := { ds1 with encodeBuf := buf }
      match sfUudecode buf size ds.uuState.decodeAvail ds2.beginFound ds2.endFound with
      | none => (false, resetEmailDecodeState ds2)
      | some r =>
        if r.out.length = 0 ∧ encodeAvail = 0 then (false, resetEmailDecodeState ds2)
        else (true, { ds2 with
          beginFound := if r.endFound then false else r.beginFound
          endFound := false
          decodeType := if r.endFound then .none else ds2.decodeType
          prevEncodedBytes :=
            if r.bytesRead < size then size - r.bytesRead else ds2.prevEncodedBytes
          prevEncodedBuf := if r.bytesRead < size then some r.bytesRead else ds2.prevEncodedBuf
          decodePresent := true
          decoded := r.out
          uuState := ds2.uuState.read (min r.bytesRead size) r.out.length })

/-- The calls of a decoder for packets that come in: the bytes decoded by those that succeed, and the
state behind the last. -/
def decodeAll (decode : List Byte → EmailDecodeState → Bool × EmailDecodeState) :
    List (List Byte) → EmailDecodeState → List Byte × EmailDecodeState
  | [], ds => ([], ds)
  | p :: ps, ds =>
    let r := decode p ds
    let rest := decodeAll decode ps r.2
    ((if r.1 then r.2.decoded else []) ++ rest.1, rest.2)

end Snort.Email
