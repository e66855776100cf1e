import Snort.HiPaf.Model

/-!
# Chunked bodies: `CheckChunkEncoding`

`hi_server_extract_body` hands every packet of a chunked body to `CheckChunkEncoding`, which copies the
data of the chunks, and keeps how much of the last one is still to come.

The event options and the counters of small chunks are left out, and `server_flow_depth` is 0.  A packet
is a list of bytes; a function gives `none` where the code reads a byte at `end`.
-/

namespace Snort.HttpInspect

open HiPaf (Byte chr eol)

/-- `valid_lookup` and `hex_lookup`: the value of a hexadecimal digit. -/
def hexLookup (c : Byte) : Option ℕ :=
  if chr '0' ≤ c ∧ c ≤ chr '9' then some (c.toNat - (chr '0').toNat)
  else if chr 'A' ≤ c ∧ c ≤ chr 'F' then some (c.toNat - (chr 'A').toNat + 10)
  else if chr 'a' ≤ c ∧ c ≤ chr 'f' then some (c.toNat - (chr 'a').toNat + 10)
  else none

theorem hexLookup_lt : ∀ c h, hexLookup c = some h → h < 16 := by
  have hall : ∀ c, ∀ h ∈ hexLookup c, h < 16 := by decide +kernel
  exact fun c h hc => hall c h hc

/-- A blank or a tab. -/
def blank (c : Byte) : Bool := c = chr ' ' ∨ c = chr '\t'

/-- The variables of `CheckChunkEncoding`. -/
structure ChunkState where
  iChunkLen : ℕ := 0
  iChunkChars : ℕ := 0
  iCheckChunk : Bool := true
  chunkPresent : Bool := false
  iChunkBuf : List Byte := []
  updatedChunkRemainder : ℕ := 0
  deriving DecidableEq

namespace ChunkState

variable (s : ChunkState)

/-- A chunk length may begin. -/
def restart : ChunkState := { s with iCheckChunk := true, iChunkLen := 0, iChunkChars := 0 }

/-- There is no chunk length in this line. -/
def giveUp : ChunkState := { s with iCheckChunk := false, iChunkLen := 0, iChunkChars := 0 }

/-- One digit of a chunk length. -/
def digit (h : ℕ) : ChunkState :=
  { s with iChunkLen := (s.iChunkLen <<< 4) % 2 ^ 32 ||| h, iChunkChars := s.iChunkChars + 1 }

/-- The chunk is cut to the `iDataLen` bytes that are left of the packet. -/
def clip (iDataLen : ℕ) : ChunkState :=
  if s.iChunkLen > iDataLen then
    { s with updatedChunkRemainder := s.iChunkLen - iDataLen, iChunkLen := iDataLen }
  else s

/-- The data of the chunk is copied, if there is room. -/
def copy (maxSize : ℕ) (data : List Byte) : ChunkState :=
  { s with
    chunkPresent := true
    iChunkBuf :=
      if s.iChunkBuf.length + s.iChunkLen ≤ maxSize then s.iChunkBuf ++ data.take s.iChunkLen
      else s.iChunkBuf }

end ChunkState

/-- `SkipBlankAndNewLine` and the test of the byte behind the blanks: how far `ptr` moves. -/
def behindBlanks (l : List Byte) : Option ℕ :=
  let n := (l.takeWhile blank).length
  l[n]?.map fun c => if c = eol then n + 1 else n

/-- The loop of `CheckChunkEncoding`; `ptr` is `ahead` bytes further. -/
def chunkLoop (maxSize : ℕ) : ℕ → ChunkState → List Byte → Option ChunkState
  | _, s, [] => some s
  | ahead + 1, s, _ :: rest => chunkLoop maxSize ahead s rest
  | 0, s, c :: rest =>
    if c = eol ∨ blank c then
      if s.iCheckChunk ∧ s.iChunkLen ≠ 0 then
        match behindBlanks (c :: rest) with
        | none => none
        | some n =>
          let data := (c :: rest).drop n
          let s := s.clip data.length
          if s.iChunkLen = 0 then some s
          else if data.length ≤ s.iChunkLen then some (s.copy maxSize data)
          else chunkLoop maxSize (n + s.iChunkLen) (s.copy maxSize data).restart rest
      else if s.iCheckChunk ∨ c = eol then chunkLoop maxSize 0 s.restart rest
      else chunkLoop maxSize 0 s rest
    else if s.iCheckChunk then
      match hexLookup c with
      | none =>
        if c = chr '\r' then
          match rest with
          | [] => some s
          | d :: _ =>
            if d = eol then chunkLoop maxSize 0 s rest else chunkLoop maxSize 1 s.giveUp rest
        else if c = chr ';' then chunkLoop maxSize (rest.takeWhile (· ≠ eol)).length s rest
        else chunkLoop maxSize 0 s.giveUp rest
      | some h =>
        if s.iChunkChars ≥ 8 then chunkLoop maxSize 0 s.giveUp rest
        else chunkLoop maxSize 0 (s.digit h) rest
    else chunkLoop maxSize 0 s rest

/-- What `CheckChunkEncoding` does with the rest of a chunk of the packets before, and where `ptr` is
then. -/
def takeRemainder (maxSize : ℕ) (data : List Byte) (chunkRemainder : ℕ) : ChunkState × ℕ :=
  if chunkRemainder = 0 then ({}, 0)
  else
    let iDataLen := data.length
    let (updated, n) :=
      if iDataLen < maxSize then
        if chunkRemainder > iDataLen then (chunkRemainder - iDataLen, iDataLen)
        else (0, chunkRemainder)
      else if chunkRemainder > maxSize then (chunkRemainder - maxSize, maxSize)
      else (0, chunkRemainder)
    if 1 ≤ n ∧ n ≤ iDataLen then
      ({ chunkPresent := true, iChunkBuf := data.take n, updatedChunkRemainder := updated }, n)
    else ({ updatedChunkRemainder := updated }, 0)

/-- `CheckChunkEncoding`; it returns 1 if `chunkPresent`. -/
def checkChunkEncoding (maxSize : ℕ) (data : List Byte) (chunkRemainder : ℕ) : Option ChunkState :=
  let (s, ahead) := takeRemainder maxSize data chunkRemainder
  chunkLoop maxSize ahead s data

/-- What is kept of a response between two packets. -/
structure RespState where
  lastPktChunked : Bool
  chunkRemainder : ℕ
  deriving DecidableEq

/-- `hi_server_extract_body`, on a body without a Content-Length: the bytes that are copied. -/
def hiServerExtractBody (maxSize : ℕ) (r : RespState) (data : List Byte) :
    Option (List Byte × RespState) :=
  if r.lastPktChunked then
    (checkChunkEncoding maxSize data r.chunkRemainder).map fun s =>
      if s.chunkPresent then (s.iChunkBuf, ⟨true, s.updatedChunkRemainder⟩)
      else (s.iChunkBuf, { r with lastPktChunked := false })
  else some ([], r)

/-- The packets of a body, one after the other. -/
def extractAll (maxSize : ℕ) : RespState → List (List Byte) → Option (List Byte)
  | _, [] => some []
  | r, p :: ps => do
    let (copied, r) ← hiServerExtractBody maxSize r p
    let rest ← extractAll maxSize r ps
    some (copied ++ rest)

end Snort.HttpInspect
