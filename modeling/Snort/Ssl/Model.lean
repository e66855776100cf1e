import Snort.Lib.Loop

/-!
# The SSL decoder

A packet is a list of bytes, a pointer into it is an offset, and a read outside of it is a fault.  `size` is an `int`
that a bad length makes negative.

* `sslDecodeHandshakeV3`, `sslDecodeV3`: handshakes inside of the records of SSLv3 and TLS;
* `sslDecodeV2`: the records of SSLv2;
* `sslDecode`: which of the two a packet is.
-/

namespace Snort.Ssl

open Loop

/-! ### Flags -/

def sslChangeCipherFlag : UInt32 := 0x00000001
def sslAlertFlag : UInt32 := 0x00000002
def sslPossibleHsFlag : UInt32 := 0x00000004
def sslClientHelloFlag : UInt32 := 0x00000008
def sslServerHelloFlag : UInt32 := 0x00000010
def sslCertificateFlag : UInt32 := 0x00000020
def sslServerKeyxFlag : UInt32 := 0x00000040
def sslClientKeyxFlag : UInt32 := 0x00000080
def sslSappFlag : UInt32 := 0x00000400
def sslCappFlag : UInt32 := 0x00000800
def sslHsSdoneFlag : UInt32 := 0x00001000
def sslPossiblyEncFlag : UInt32 := 0x00002000
def sslVerSslv2Flag : UInt32 := 0x00004000
def sslVerSslv3Flag : UInt32 := 0x00008000
def sslVerTls10Flag : UInt32 := 0x00010000
def sslVerTls11Flag : UInt32 := 0x00020000
def sslVerTls12Flag : UInt32 := 0x00040000
def sslVerflags : UInt32 := sslVerSslv2Flag ||| sslVerSslv3Flag ||| sslVerTls10Flag ||| sslVerTls11Flag ||| sslVerTls12Flag
def sslCurClientHelloFlag : UInt32 := 0x00080000
def sslCurServerHelloFlag : UInt32 := 0x00100000
def sslCurServerKeyxFlag : UInt32 := 0x00200000
def sslCurClientKeyxFlag : UInt32 := 0x00400000
def sslUnknownFlag : UInt32 := 0x01000000
def sslBogusHsDirFlag : UInt32 := 0x08000000
def sslBadTypeFlag : UInt32 := 0x20000000
def sslBadVerFlag : UInt32 := 0x40000000
def sslTruncatedFlag : UInt32 := 0x80000000
def sslArgErrorFlag : UInt32 := 0x00000000

/-- `FLAG_FROM_SERVER`. -/
def flagFromServer : UInt32 := 0x00000040

/-- `FLAG_FROM_CLIENT`. -/
def flagFromClient : UInt32 := 0x00000080

/-! ### Reading -/

section Decode

variable (pkt : List UInt8) (pktFlags : UInt32)

/-- `THREE_BYTE_LEN`. -/
def threeByteLen (pos : ℕ) : Option ℕ := do
  let hi ← pkt[pos]?
  let mid ← pkt[pos + 1]?
  let lo ← pkt[pos + 2]?
  return lo.toNat + mid.toNat * 256 + hi.toNat * 65536

/-- `ntohs`. -/
def ntohs (pos : ℕ) : Option ℕ := do
  let hi ← pkt[pos]?
  let lo ← pkt[pos + 1]?
  return hi.toNat * 256 + lo.toNat

/-- The variables of the three loops: `pkt` as an offset, `size`, `retval`, and `ccs` of `SSL_decode_v3`. -/
structure Vars where
  pos : ℕ
  size : ℤ
  retval : UInt32
  ccs : Bool := false

/-- `if (size < 0)` behind a loop. -/
def truncated (s : Vars) : UInt32 := if s.size < 0 then s.retval ||| sslTruncatedFlag else s.retval

/-- The result of a loop inside of another one. -/
def returned : Outcome UInt32 → Option UInt32
  | .returns r => some r
  | .fault => none
  | .running => none

/-! ### SSLv3 and TLS -/

/-- `SSL_decode_version_v3`. -/
def sslDecodeVersionV3 (major minor : UInt8) : UInt32 :=
  if major = 3 then
    match minor.toNat with
    | 0 => sslVerSslv3Flag
    | 1 => sslVerTls10Flag
    | 2 => sslVerTls11Flag
    | 3 => sslVerTls12Flag
    | _ => sslBadVerFlag
  else sslBadVerFlag

/-- The version in a hello of SSLv3, with `size` bytes behind the header of the handshake. -/
def helloVersion (curFlags : UInt32) (pos : ℕ) (size : ℤ) (retval : UInt32) : Option UInt32 :=
  if size < 2 then some (retval ||| sslTruncatedFlag)
  else do
    let major ← pkt[pos + 4]?
    let minor ← pkt[pos + 5]?
    let retval := retval ||| sslDecodeVersionV3 major minor
    return if curFlags &&& sslVerflags ≠ retval &&& sslVerflags then retval ||| sslBadVerFlag else retval

/-- The `switch` of `SSL_decode_handshake_v3`; its last case returns from the function. -/
def handshakeFlags (curFlags : UInt32) (pos : ℕ) (size : ℤ) (retval : UInt32) (type : UInt8) :
    Option (Turn UInt32 UInt32) :=
  let fromServer := pktFlags &&& flagFromServer ≠ 0
  match type.toNat with
  | 1 => (helloVersion pkt curFlags pos size (retval ||| if fromServer then sslBogusHsDirFlag
      else sslClientHelloFlag ||| sslCurClientHelloFlag)).map .more
  | 2 => (helloVersion pkt curFlags pos size (retval ||| if fromServer then
      sslServerHelloFlag ||| sslCurServerHelloFlag else sslBogusHsDirFlag)).map .more
  | 14 => some (.more (retval ||| if fromServer then sslHsSdoneFlag else sslBogusHsDirFlag))
  | 12 => some (.more (retval ||| if fromServer then sslServerKeyxFlag ||| sslCurServerKeyxFlag else sslBogusHsDirFlag))
  | 16 => some (.more (retval ||| if fromServer then sslBogusHsDirFlag else sslClientKeyxFlag ||| sslCurClientKeyxFlag))
  | 11 => some (.more (retval ||| sslCertificateFlag))
  | 0 | 15 | 13 | 21 | 22 => some (.more retval)
  | _ => some (.done (sslPossibleHsFlag ||| sslPossiblyEncFlag))

/-- A turn of the loop of `SSL_decode_handshake_v3`. -/
def handshakeTurn (curFlags : UInt32) (s : Vars) : Option (Turn Vars UInt32) :=
  if s.size ≤ 0 then some (.done (truncated s))
  else if s.size < 4 then some (.done (s.retval ||| sslTruncatedFlag))
  else do
    let hsLen ← threeByteLen pkt (s.pos + 1)
    let type ← pkt[s.pos]?
    match ← handshakeFlags pkt pktFlags curFlags s.pos (s.size - 4) s.retval type with
    | .done r => return .done r
    | .more retval => return .more ⟨s.pos + 4 + hsLen, s.size - 4 - hsLen, retval, false⟩

/-- `SSL_decode_handshake_v3`: a turn takes at least one byte. -/
def sslDecodeHandshakeV3 (pos : ℕ) (size : ℤ) (curFlags : UInt32) : Outcome UInt32 :=
  run (handshakeTurn pkt pktFlags curFlags) (size.toNat + 1) ⟨pos, size, 0, false⟩

/-- The `switch` of `SSL_decode_v3`, with `size` bytes from `pos` on: `retval` and `ccs`. -/
def recordFlags (pos : ℕ) (size : ℤ) (retval : UInt32) (ccs : Bool) (type : UInt8) (reclen : ℕ) :
    Option (UInt32 × Bool) :=
  match type.toNat with
  | 20 =>
    let retval := retval ||| sslChangeCipherFlag
    some (if 0 < size - reclen then retval ||| sslPossiblyEncFlag else retval, true)
  | 21 => some (retval ||| sslAlertFlag, false)
  | 22 =>
    if retval &&& sslChangeCipherFlag = 0 then
      let hsize := if size < reclen then size else reclen
      (returned (sslDecodeHandshakeV3 pkt pktFlags pos hsize retval)).map fun r => (retval ||| r, false)
    else some (if ccs then retval ||| sslHsSdoneFlag else retval, false)
  | 23 => some (retval ||| if pktFlags &&& flagFromServer ≠ 0 then sslSappFlag else sslCappFlag, false)
  | _ => some (retval ||| sslBadTypeFlag, false)

/-- What is done at the end of `SSL_decode_v3`. -/
def unknownVersion (retval : UInt32) : UInt32 :=
  if retval &&& sslVerflags = 0 ∨ retval &&& sslBadVerFlag ≠ 0 then retval ||| sslUnknownFlag else retval

/-- A turn of the loop of `SSL_decode_v3`. -/
def v3Turn (s : Vars) : Option (Turn Vars UInt32) :=
  if s.size ≤ 0 then some (.done (unknownVersion (truncated s)))
  else if s.size < 5 then some (.done (unknownVersion (s.retval ||| sslTruncatedFlag)))
  else do
    let major ← pkt[s.pos + 1]?
    let minor ← pkt[s.pos + 2]?
    let reclen ← ntohs pkt (s.pos + 3)
    let type ← pkt[s.pos]?
    let (retval, ccs) ← recordFlags pkt pktFlags (s.pos + 5) (s.size - 5)
      (s.retval ||| sslDecodeVersionV3 major minor) s.ccs type reclen
    return .more ⟨s.pos + 5 + reclen, s.size - 5 - reclen, retval, ccs⟩

/-- `SSL_decode_v3`: a turn takes at least one byte. -/
def sslDecodeV3 : Outcome UInt32 :=
  run (v3Turn pkt pktFlags) (pkt.length + 1) ⟨0, pkt.length, 0, false⟩

/-! ### SSLv2 -/

/-- The types of the records of SSLv2. -/
inductive V2Type
  | chello
  | ckey
  | shello
  deriving DecidableEq

/-- `SSL_V2_CHELLO`, `SSL_V2_CKEY`, `SSL_V2_SHELLO`. -/
def V2Type.code : V2Type → UInt8
  | .chello => 1
  | .ckey => 2
  | .shello => 4

/-- The type with a code. -/
def V2Type.ofCode (code : UInt8) : Option V2Type :=
  if code = 1 then some .chello else if code = 4 then some .shello else if code = 2 then some .ckey else none

/-- The flags of a record of a type, by its direction. -/
def V2Type.flags : V2Type → UInt32
  | .chello => if pktFlags &&& flagFromServer ≠ 0 then sslBogusHsDirFlag
      else sslClientHelloFlag ||| sslCurClientHelloFlag
  | .shello => if pktFlags &&& flagFromClient ≠ 0 then sslBogusHsDirFlag
      else sslServerHelloFlag ||| sslCurServerHelloFlag
  | .ckey => sslClientKeyxFlag ||| sslCurClientKeyxFlag

/-- The version in a hello of SSLv2: `major` is its last byte, behind `offset` others. -/
def majorV2 (pos : ℕ) (size : ℤ) (offset : ℕ) (retval : UInt32) : Option UInt32 :=
  if size < offset + 1 then some (retval ||| (sslTruncatedFlag ||| sslUnknownFlag))
  else (pkt[pos + offset]?).map fun major =>
    if major ≠ 2 then retval ||| (sslBadVerFlag ||| sslUnknownFlag) else retval

/-- The `switch` of `SSL_decode_v2`. -/
def v2Flags (pos : ℕ) (size : ℤ) (retval : UInt32) : V2Type → Option UInt32
  | .chello => majorV2 pkt pos size 4 (retval ||| V2Type.chello.flags pktFlags)
  | .shello => majorV2 pkt pos size 6 (retval ||| V2Type.shello.flags pktFlags)
  | .ckey => some (retval ||| V2Type.ckey.flags pktFlags)

/-- A turn of the loop of `SSL_decode_v2`: `record` stays at the start of the packet. -/
def v2Turn (s : Vars) : Option (Turn Vars UInt32) :=
  if s.size ≤ 0 then some (.done (truncated s ||| sslVerSslv2Flag))
  else if s.size < 5 then some (.done (s.retval ||| (sslTruncatedFlag ||| sslUnknownFlag) ||| sslVerSslv2Flag))
  else do
    let length ← ntohs pkt 0
    let reclen := length &&& 0x7fff
    let code ← pkt[2]?
    match V2Type.ofCode code with
    | none => return .done (s.retval ||| sslBadTypeFlag ||| sslUnknownFlag)
    | some type =>
      let retval ← v2Flags pkt pktFlags s.pos s.size s.retval type
      return .more ⟨s.pos + (reclen + 2), s.size - (reclen + 2), retval, false⟩

/-- `SSL_decode_v2`: a turn takes at least two bytes. -/
def sslDecodeV2 : Outcome UInt32 :=
  run (v2Turn pkt pktFlags) (pkt.length + 1) ⟨0, pkt.length, 0, false⟩

/-! ### The decoder -/

/-- Whether the length of a record of TLS with one handshake in it, a `size_t`, is not the one of the handshake. -/
def lengthsDiffer : Option Bool := do
  let datalen ← threeByteLen pkt 6
  let reclen ← ntohs pkt 3
  return (reclen + 2 ^ 64 - 4) % 2 ^ 64 ≠ datalen

/-- Whether a packet without the bits of SSLv2 is decoded as SSLv2 all the same. -/
def looksV2 : Option Bool := do
  let helloType ← pkt[4]?
  if helloType = 2 then
    if 10 ≤ pkt.length then
      let major ← pkt[9]?
      if major = 3 then lengthsDiffer pkt else return false
    else return false
  else if 8 ≤ pkt.length then
    let major ← pkt[7]?
    if major = 2 then lengthsDiffer pkt else return false
  else return false

/-- `SSL_decode`. -/
def sslDecode : Outcome UInt32 :=
  if pkt.length = 0 then .returns sslArgErrorFlag
  else if pkt.length < 5 then .returns (sslTruncatedFlag ||| sslUnknownFlag)
  else
    match pkt[0]? with
    | none => .fault
    | some first =>
      if first &&& 0x80 ≠ 0 ∨ first &&& 0x40 ≠ 0 then sslDecodeV2 pkt pktFlags
      else if pkt.length = 5 then sslDecodeV3 pkt pktFlags
      else
        match looksV2 pkt with
        | none => .fault
        | some true => sslDecodeV2 pkt pktFlags
        | some false => sslDecodeV3 pkt pktFlags

end Decode

end Snort.Ssl
