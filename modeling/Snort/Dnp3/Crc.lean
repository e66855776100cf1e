import Snort.Lib.Crc
import Snort.Dnp3.Paf
import Snort.Dnp3.Reassembly

/-!
# CRCs of link frames: the functions of `dnp3_reassembly.c`

* `dnp3CheckCRC`: the check of a block, with the table;
* `dnp3CheckRemoveCRC`: the user data of a frame;
* `crcOf`: the code itself, bit by bit; `dnp3CheckCRC_iff`: a block passes if its last two bytes are the code
  of the others.

* `linkFrame`: the frame of some user data; `dnp3CheckRemoveCRC_linkFrame`: its user data come back;
* `piece`: what the loop takes in its rounds; `Bad`: a round in which a check fails;
* `removeChunks_eq_none`: when a write goes beyond the buffer; `fst_eq_ok_iff`: when the user data are taken;
* **`dnp3CheckRemoveCRC_iff`**: the PDUs for which nothing is written beyond the buffer and nothing unchecked is
  taken as a frame.
-/

namespace Snort.Dnp3

open Crc

/-- `crcLookUpTable`. -/
def crcLookUpTable : List (BitVec 16) :=
  [0x0000, 0x365E, 0x6CBC, 0x5AE2, 0xD978, 0xEF26, 0xB5C4, 0x839A, 0xFF89, 0xC9D7, 0x9335, 0xA56B,
   0x26F1, 0x10AF, 0x4A4D, 0x7C13, 0xB26B, 0x8435, 0xDED7, 0xE889, 0x6B13, 0x5D4D, 0x07AF, 0x31F1,
   0x4DE2, 0x7BBC, 0x215E, 0x1700, 0x949A, 0xA2C4, 0xF826, 0xCE78, 0x29AF, 0x1FF1, 0x4513, 0x734D,
   0xF0D7, 0xC689, 0x9C6B, 0xAA35, 0xD626, 0xE078, 0xBA9A, 0x8CC4, 0x0F5E, 0x3900, 0x63E2, 0x55BC,
   0x9BC4, 0xAD9A, 0xF778, 0xC126, 0x42BC, 0x74E2, 0x2E00, 0x185E, 0x644D, 0x5213, 0x08F1, 0x3EAF,
   0xBD35, 0x8B6B, 0xD189, 0xE7D7, 0x535E, 0x6500, 0x3FE2, 0x09BC, 0x8A26, 0xBC78, 0xE69A, 0xD0C4,
   0xACD7, 0x9A89, 0xC06B, 0xF635, 0x75AF, 0x43F1, 0x1913, 0x2F4D, 0xE135, 0xD76B, 0x8D89, 0xBBD7,
   0x384D, 0x0E13, 0x54F1, 0x62AF, 0x1EBC, 0x28E2, 0x7200, 0x445E, 0xC7C4, 0xF19A, 0xAB78, 0x9D26,
   0x7AF1, 0x4CAF, 0x164D, 0x2013, 0xA389, 0x95D7, 0xCF35, 0xF96B, 0x8578, 0xB326, 0xE9C4, 0xDF9A,
   0x5C00, 0x6A5E, 0x30BC, 0x06E2, 0xC89A, 0xFEC4, 0xA426, 0x9278, 0x11E2, 0x27BC, 0x7D5E, 0x4B00,
   0x3713, 0x014D, 0x5BAF, 0x6DF1, 0xEE6B, 0xD835, 0x82D7, 0xB489, 0xA6BC, 0x90E2, 0xCA00, 0xFC5E,
   0x7FC4, 0x499A, 0x1378, 0x2526, 0x5935, 0x6F6B, 0x3589, 0x03D7, 0x804D, 0xB613, 0xECF1, 0xDAAF,
   0x14D7, 0x2289, 0x786B, 0x4E35, 0xCDAF, 0xFBF1, 0xA113, 0x974D, 0xEB5E, 0xDD00, 0x87E2, 0xB1BC,
   0x3226, 0x0478, 0x5E9A, 0x68C4, 0x8F13, 0xB94D, 0xE3AF, 0xD5F1, 0x566B, 0x6035, 0x3AD7, 0x0C89,
   0x709A, 0x46C4, 0x1C26, 0x2A78, 0xA9E2, 0x9FBC, 0xC55E, 0xF300, 0x3D78, 0x0B26, 0x51C4, 0x679A,
   0xE400, 0xD25E, 0x88BC, 0xBEE2, 0xC2F1, 0xF4AF, 0xAE4D, 0x9813, 0x1B89, 0x2DD7, 0x7735, 0x416B,
   0xF5E2, 0xC3BC, 0x995E, 0xAF00, 0x2C9A, 0x1AC4, 0x4026, 0x7678, 0x0A6B, 0x3C35, 0x66D7, 0x5089,
   0xD313, 0xE54D, 0xBFAF, 0x89F1, 0x4789, 0x71D7, 0x2B35, 0x1D6B, 0x9EF1, 0xA8AF, 0xF24D, 0xC413,
   0xB800, 0x8E5E, 0xD4BC, 0xE2E2, 0x6178, 0x5726, 0x0DC4, 0x3B9A, 0xDC4D, 0xEA13, 0xB0F1, 0x86AF,
   0x0535, 0x336B, 0x6989, 0x5FD7, 0x23C4, 0x159A, 0x4F78, 0x7926, 0xFABC, 0xCCE2, 0x9600, 0xA05E,
   0x6E26, 0x5878, 0x029A, 0x34C4, 0xB75E, 0x8100, 0xDBE2, 0xEDBC, 0x91AF, 0xA7F1, 0xFD13, 0xCB4D,
   0x48D7, 0x7E89, 0x246B, 0x1235]

def octet (b : UInt8) : BitVec 16 := b.toBitVec.setWidth 16

def computeCRC (data : UInt8) (crcAccum : BitVec 16) : BitVec 16 :=
  (crcAccum >>> 8) ^^^ crcLookUpTable.getD ((crcAccum ^^^ octet data) &&& 0xff#16).toNat 0#16

/-- The bytes of a code, the low one first. -/
def lowFirst (crc : BitVec 16) : List UInt8 := [⟨crc.setWidth 8⟩, ⟨(crc >>> 8).setWidth 8⟩]

/-- The check of a block of more than two bytes. -/
def dnp3CheckCRC (buf : List UInt8) : ℤ :=
  let crc := ~~~(buf.take (buf.length - crcSize)).foldl (fun crc b => computeCRC b crc) 0#16
  if buf.drop (buf.length - crcSize) = lowFirst crc then dnp3Ok else dnp3Fail

/-- `sizeof(dnp3_link_header_t)`, and the size of `buf` in `DNP3FullReassembly`. -/
def linkHeaderSize : ℕ := 8

def bufSize : ℕ := 256

/-- `memcpy` behind what is in `buf`; nothing if it writes beyond the end. -/
def copy (buf bytes : List UInt8) : Option (List UInt8) :=
  if buf.length + bytes.length ≤ bufSize then some (buf ++ bytes) else none

/-- The loop of `DNP3CheckRemoveCRC` and what follows it, from `cursor` on. -/
def removeChunks (checkCrc : Bool) (cursor buf : List UInt8) : Option (ℤ × List UInt8) :=
  if chunkSize + crcSize < cursor.length then
    if checkCrc ∧ dnp3CheckCRC (cursor.take (chunkSize + crcSize)) = dnp3Fail then some (dnp3Fail, buf)
    else
      match copy buf (cursor.take chunkSize) with
      | none => none
      | some buf => removeChunks checkCrc (cursor.drop (chunkSize + crcSize)) buf
  else if crcSize < cursor.length then
    if checkCrc ∧ dnp3CheckCRC cursor = dnp3Fail then some (dnp3Fail, buf)
    else (copy buf (cursor.take (cursor.length - crcSize))).map fun buf => (dnp3Ok, buf)
  else some (dnp3Ok, buf)
termination_by cursor.length
decreasing_by
  simp only [chunkSize, crcSize, List.length_drop] at *
  omega

/-- A PDU is as long as a header and its CRC, at least.  The result has what is in `buf`, `*buflen` bytes; there
is none if a write goes beyond the buffer. -/
def dnp3CheckRemoveCRC (checkCrc : Bool) (pdu : List UInt8) : Option (ℤ × List UInt8) :=
  if checkCrc ∧ dnp3CheckCRC (pdu.take (linkHeaderSize + 2)) = dnp3Fail then some (dnp3Fail, [])
  else removeChunks checkCrc (pdu.drop (linkHeaderSize + 2)) []

/-! ### The code of a block -/

/-- The polynomial, the lowest power in the highest bit. -/
def poly : BitVec 16 := 0xa6bc#16

/-- The code of some bytes. -/
def crcOf (data : List UInt8) : BitVec 16 := ~~~register poly 8 0#16 (data.map octet)

/-- Some bytes with their code. -/
def block (data : List UInt8) : List UInt8 := data ++ lowFirst (crcOf data)

theorem crcLookUpTable_eq : crcLookUpTable = (List.range 256).map fun i => steps poly 8 (.ofNat 16 i) := by
  decide +kernel

theorem getD_crcLookUpTable {i : ℕ} (h : i < 256) : crcLookUpTable.getD i 0#16 = steps poly 8 (.ofNat 16 i) := by
  rw [crcLookUpTable_eq, List.getD_eq_getElem?_getD, List.getElem?_map, List.getElem?_range h, Option.map_some,
    Option.getD_some]

theorem octet_shift (b : UInt8) : octet b >>> 8 = 0#16 := by
  apply BitVec.eq_of_toNat_eq
  have := b.toNat_lt
  simp only [octet, BitVec.toNat_ushiftRight, BitVec.toNat_setWidth, UInt8.toNat_toBitVec, Nat.shiftRight_eq_div_pow]
  simp
  omega

/-- A byte goes through the register. -/
theorem computeCRC_eq (b : UInt8) (crc : BitVec 16) : computeCRC b crc = steps poly 8 (crc ^^^ octet b) := by
  refine table_step poly (fun c => crcLookUpTable.getD c.toNat 0#16) (fun c => ?_) crc (octet_shift b)
  have hlt : (c &&& mask 16 8).toNat < 256 := by
    rw [BitVec.toNat_and]
    exact Nat.lt_succ_of_le Nat.and_le_right
  rw [getD_crcLookUpTable hlt, BitVec.ofNat_toNat, BitVec.setWidth_eq]

theorem foldl_computeCRC (data : List UInt8) (crc : BitVec 16) :
    data.foldl (fun crc b => computeCRC b crc) crc = register poly 8 crc (data.map octet) := by
  induction data generalizing crc with
  | nil => rfl
  | cons b data ih => rw [List.foldl_cons, ih, computeCRC_eq, List.map_cons]; rfl

@[simp] theorem length_lowFirst (crc : BitVec 16) : (lowFirst crc).length = 2 := rfl

@[simp] theorem length_block (data : List UInt8) : (block data).length = data.length + 2 := by simp [block]

theorem dnp3CheckCRC_eq (buf : List UInt8) :
    dnp3CheckCRC buf = if buf.drop (buf.length - crcSize) = lowFirst (crcOf (buf.take (buf.length - crcSize)))
      then dnp3Ok else dnp3Fail := by
  rw [dnp3CheckCRC, foldl_computeCRC]
  rfl

theorem dnp3CheckCRC_block (data : List UInt8) : dnp3CheckCRC (block data) = dnp3Ok := by
  rw [dnp3CheckCRC_eq, length_block, crcSize, Nat.add_sub_cancel, block, List.drop_left, List.take_left, if_pos rfl]

/-- **The check of a block**: it passes if it ends with the code of what is in front. -/
theorem dnp3CheckCRC_iff {buf : List UInt8} : dnp3CheckCRC buf ≠ dnp3Fail ↔ ∃ data, buf = block data := by
  constructor
  · intro h
    rw [dnp3CheckCRC_eq] at h
    by_cases hcrc : buf.drop (buf.length - crcSize) = lowFirst (crcOf (buf.take (buf.length - crcSize)))
    · exact ⟨buf.take (buf.length - crcSize), by rw [block, ← hcrc, List.take_append_drop]⟩
    · exact absurd (if_neg hcrc) h
  · rintro ⟨data, rfl⟩
    rw [dnp3CheckCRC_block]
    decide

/-! ## Removing the CRCs of link frames -/

/-! ### Frames -/

/-- User data in blocks of 16 bytes, each with its code. -/
def blocks (u : List UInt8) : List UInt8 :=
  if u = [] then [] else block (u.take chunkSize) ++ blocks (u.drop chunkSize)
termination_by u.length
decreasing_by
  have := List.length_pos_iff.2 ‹u ≠ []›
  simp only [chunkSize, List.length_drop]
  omega

/-- The fields of a header. -/
structure LinkHeader where
  ctrl : UInt8
  dest : UInt16
  src : UInt16

/-- The header of a frame with `n` bytes of user data. -/
def LinkHeader.bytes (h : LinkHeader) (n : ℕ) : List UInt8 :=
  [startByte1, startByte2, .ofNat (n + headerRemainderLen), h.ctrl, h.dest.toUInt8, (h.dest >>> 8).toUInt8,
    h.src.toUInt8, (h.src >>> 8).toUInt8]

/-- The link frame that carries `u`. -/
def linkFrame (h : LinkHeader) (u : List UInt8) : List UInt8 := block (h.bytes u.length) ++ blocks u

/-- What the loop takes in a round: a block with its code, or what is left. -/
def piece (body : List UInt8) (k : ℕ) : List UInt8 :=
  (body.drop ((chunkSize + crcSize) * k)).take (chunkSize + crcSize)

/-- A block of user data with the right code. -/
def IsBlock (p : List UInt8) : Prop := ∃ data, data ≠ [] ∧ data.length ≤ chunkSize ∧ p = block data

/-- The header of a PDU with its code, and what is behind it. -/
def headerOf (pdu : List UInt8) : List UInt8 := pdu.take (linkHeaderSize + 2)

def bodyOf (pdu : List UInt8) : List UInt8 := pdu.drop (linkHeaderSize + 2)

/-- Nothing is written beyond the buffer, and where the CRCs are checked and `DNP3_OK` is returned the header and
every block have the right code. -/
def RemovesSafely (checkCrc : Bool) (pdu : List UInt8) : Prop :=
  ∃ r, dnp3CheckRemoveCRC checkCrc pdu = some r ∧
    (checkCrc = true → r.1 = dnp3Ok → (∃ data, headerOf pdu = block data) ∧
      ∀ k, (chunkSize + crcSize) * k < (bodyOf pdu).length → IsBlock (piece (bodyOf pdu) k))

/-- A round in which the check of a code fails. -/
def Bad (checkCrc : Bool) (body : List UInt8) (k : ℕ) : Prop :=
  checkCrc = true ∧ (chunkSize + crcSize) * k + crcSize < body.length ∧ dnp3CheckCRC (piece body k) = dnp3Fail

/-- The check of the header or of one of the blocks that the buffer has room for, or of the next one, fails. -/
def FailsInTime (checkCrc : Bool) (pdu : List UInt8) : Prop :=
  checkCrc = true ∧ (dnp3CheckCRC (headerOf pdu) = dnp3Fail ∨
    ∃ k, k ≤ bufSize / chunkSize ∧ Bad checkCrc (bodyOf pdu) k)

/-! ### The user data of a frame -/

variable {checkCrc : Bool} {cursor buf u : List UInt8}

theorem blocks_nil : blocks [] = [] := by rw [blocks, if_pos rfl]

theorem blocks_of_ne_nil (hu : u ≠ []) : blocks u = block (u.take chunkSize) ++ blocks (u.drop chunkSize) := by
  rw [blocks, if_neg hu]

theorem copy_of_le {bytes : List UInt8} (h : buf.length + bytes.length ≤ bufSize) :
    copy buf bytes = some (buf ++ bytes) := if_pos h

theorem copy_of_lt {bytes : List UInt8} (h : bufSize < buf.length + bytes.length) : copy buf bytes = none :=
  if_neg (by omega)

/-- A round of the loop. -/
theorem removeChunks_of_long (h : 18 < cursor.length) :
    removeChunks checkCrc cursor buf =
      if checkCrc ∧ dnp3CheckCRC (cursor.take 18) = dnp3Fail then some (dnp3Fail, buf)
      else match copy buf (cursor.take 16) with
        | none => none
        | some buf => removeChunks checkCrc (cursor.drop 18) buf := by
  rw [removeChunks, if_pos (by simpa [chunkSize, crcSize] using h)]
  rfl

/-- What follows the loop. -/
theorem removeChunks_of_leftover (h : cursor.length ≤ 18) (h' : 2 < cursor.length) :
    removeChunks checkCrc cursor buf =
      if checkCrc ∧ dnp3CheckCRC cursor = dnp3Fail then some (dnp3Fail, buf)
      else (copy buf (cursor.take (cursor.length - 2))).map fun buf => (dnp3Ok, buf) := by
  rw [removeChunks, if_neg (by simpa [chunkSize, crcSize] using h), if_pos (by simpa [crcSize] using h')]
  rfl

theorem removeChunks_of_short (h : cursor.length ≤ 2) : removeChunks checkCrc cursor buf = some (dnp3Ok, buf) := by
  rw [removeChunks, if_neg (by simp only [chunkSize, crcSize]; omega), if_neg (by simp only [crcSize]; omega)]

/-- The rounds for the blocks of some user data. -/
theorem removeChunks_blocks (hroom : buf.length + u.length ≤ bufSize) :
    removeChunks checkCrc (blocks u) buf = some (dnp3Ok, buf ++ u) := by
  induction hn : u.length using Nat.strong_induction_on generalizing u buf with
  | h n ih =>
    subst hn
    rcases eq_or_ne u [] with rfl | hu
    · rw [blocks_nil, removeChunks_of_short (by simp), List.append_nil]
    have hpos := List.length_pos_iff.2 hu
    have hcheck := dnp3CheckCRC_block (u.take chunkSize)
    have hok : ¬(checkCrc = true ∧ dnp3Ok = dnp3Fail) := fun h => absurd h.2 (by decide)
    by_cases hlast : u.length ≤ chunkSize
    · -- one block is left
      have htake : u.take chunkSize = u := List.take_of_length_le hlast
      have hblocks : blocks u = block u := by
        rw [blocks_of_ne_nil hu, htake, List.drop_eq_nil_of_le hlast, blocks_nil, List.append_nil]
      rw [htake] at hcheck
      simp only [chunkSize] at hlast
      rw [hblocks, removeChunks_of_leftover (by simp; omega) (by simp; omega), hcheck, if_neg hok, length_block,
        Nat.add_sub_cancel, block, List.take_left, copy_of_le hroom]
      rfl
    · -- a whole block in front of others
      have hlen : (u.take chunkSize).length = 16 := by simp only [chunkSize, List.length_take] at hlast ⊢; omega
      have hblock : (block (u.take chunkSize)).length = 18 := by rw [length_block, hlen]
      have hrest : u.drop chunkSize ≠ [] := by
        simp only [ne_eq, List.drop_eq_nil_iff]
        omega
      have hmore : 18 < (blocks u).length := by
        rw [blocks_of_ne_nil hu, blocks_of_ne_nil hrest, List.length_append, hblock, List.length_append, length_block]
        omega
      have hsplit := blocks_of_ne_nil hu
      have htake : (blocks u).take 18 = block (u.take chunkSize) := by rw [hsplit, ← hblock, List.take_left]
      have hdrop : (blocks u).drop 18 = blocks (u.drop chunkSize) := by rw [hsplit, ← hblock, List.drop_left]
      have hdata : (blocks u).take 16 = u.take chunkSize := by
        rw [hsplit, block, List.append_assoc, ← hlen, List.take_left]
      have hsum : (u.take chunkSize).length + (u.drop chunkSize).length = u.length := by
        rw [← List.length_append, List.take_append_drop]
      rw [removeChunks_of_long hmore, htake, hcheck, if_neg hok, hdata, copy_of_le (by omega), hdrop]
      have hroom' : (buf ++ u.take chunkSize).length + (u.drop chunkSize).length ≤ bufSize := by
        rw [List.length_append]
        omega
      simp only [ih (u.drop chunkSize).length (by omega) hroom' rfl, List.append_assoc, List.take_append_drop]

theorem length_headerBytes (h : LinkHeader) (n : ℕ) : (h.bytes n).length = linkHeaderSize := rfl

theorem headerOf_linkFrame (h : LinkHeader) (u : List UInt8) : headerOf (linkFrame h u) = block (h.bytes u.length) := by
  rw [headerOf, linkFrame, ← length_headerBytes h u.length, ← length_block, List.take_left]

theorem bodyOf_linkFrame (h : LinkHeader) (u : List UInt8) : bodyOf (linkFrame h u) = blocks u := by
  rw [bodyOf, linkFrame, ← length_headerBytes h u.length, ← length_block, List.drop_left]

theorem dnp3CheckRemoveCRC_eq (pdu : List UInt8) :
    dnp3CheckRemoveCRC checkCrc pdu =
      if checkCrc ∧ dnp3CheckCRC (headerOf pdu) = dnp3Fail then some (dnp3Fail, [])
      else removeChunks checkCrc (bodyOf pdu) [] := rfl

/-- The user data of a frame come back. -/
theorem dnp3CheckRemoveCRC_linkFrame (checkCrc : Bool) (h : LinkHeader) (hroom : u.length ≤ bufSize) :
    dnp3CheckRemoveCRC checkCrc (linkFrame h u) = some (dnp3Ok, u) := by
  rw [dnp3CheckRemoveCRC_eq, headerOf_linkFrame, bodyOf_linkFrame, dnp3CheckCRC_block,
    if_neg (fun h => absurd h.2 (by decide)), removeChunks_blocks (by simpa using hroom), List.nil_append]

/-! ### The rounds -/

theorem piece_zero (body : List UInt8) : piece body 0 = body.take 18 := by simp [piece, chunkSize, crcSize]

theorem piece_drop (body : List UInt8) (k : ℕ) : piece (body.drop 18) k = piece body (k + 1) := by
  simp only [piece, List.drop_drop, chunkSize, crcSize]
  congr 2
  ring

theorem bad_zero_iff (checkCrc : Bool) (h : 2 < cursor.length) :
    Bad checkCrc cursor 0 ↔ checkCrc = true ∧ dnp3CheckCRC (cursor.take 18) = dnp3Fail := by
  simp [Bad, piece_zero, crcSize, h]

theorem bad_drop_iff (k : ℕ) : Bad checkCrc (cursor.drop 18) k ↔ Bad checkCrc cursor (k + 1) := by
  simp only [Bad, piece_drop, chunkSize, crcSize, List.length_drop]
  refine and_congr_right fun _ => and_congr_left fun _ => ?_
  omega

theorem not_bad_of_length {k : ℕ} (h : cursor.length ≤ 18 * k + 2) : ¬Bad checkCrc cursor k := by
  rintro ⟨-, hlt, -⟩
  simp only [chunkSize, crcSize] at hlt
  omega

/-- **The end of the buffer**: a write goes beyond it if there are more blocks than it has room for and no check
fails before. -/
theorem removeChunks_eq_none {m : ℕ} (hroom : buf.length + chunkSize * m = bufSize) :
    removeChunks checkCrc cursor buf = none ↔ 18 * m + 2 < cursor.length ∧ ∀ k ≤ m, ¬Bad checkCrc cursor k := by
  induction m generalizing cursor buf with
  | zero =>
    simp only [Nat.mul_zero, Nat.add_zero, Nat.zero_add, Nat.le_zero, forall_eq] at hroom ⊢
    by_cases hshort : cursor.length ≤ 2
    · simp [removeChunks_of_short hshort, hshort]
    rw [bad_zero_iff checkCrc (by omega)]
    by_cases hlong : 18 < cursor.length
    · rw [removeChunks_of_long hlong, copy_of_lt (by rw [List.length_take]; omega)]
      split_ifs with hbad
      · simp [hbad]
      · simp only [true_iff]
        exact ⟨by omega, hbad⟩
    · rw [removeChunks_of_leftover (by omega) (by omega), copy_of_lt (by rw [List.length_take]; omega),
        List.take_of_length_le (by omega : cursor.length ≤ 18)]
      split_ifs with hbad
      · simp [hbad]
      · simp only [Option.map_none, true_iff]
        exact ⟨by omega, hbad⟩
  | succ m ih =>
    simp only [chunkSize] at hroom
    by_cases hlong : 18 < cursor.length
    · have hzero := bad_zero_iff checkCrc (by omega : 2 < cursor.length)
      rw [removeChunks_of_long hlong, copy_of_le (by rw [List.length_take]; omega)]
      split_ifs with hbad
      · simp only [false_iff, not_and]
        exact fun _ h => h 0 (Nat.zero_le _) (hzero.2 hbad)
      · rw [ih (by rw [List.length_append, List.length_take, chunkSize]; omega), List.length_drop]
        refine and_congr (by omega) ⟨fun h k hk => ?_, fun h k hk => ?_⟩
        · rcases k with _ | k
          · rwa [hzero]
          · rw [← bad_drop_iff]
            exact h k (by omega)
        · rw [bad_drop_iff]
          exact h (k + 1) (by omega)
    · have hne : removeChunks checkCrc cursor buf ≠ none := by
        by_cases hshort : cursor.length ≤ 2
        · simp [removeChunks_of_short hshort]
        · rw [removeChunks_of_leftover (by omega) (by omega), copy_of_le (by rw [List.length_take]; omega)]
          split_ifs <;> simp
      simp only [hne, false_iff, not_and]
      omega

/-- What is returned, if nothing is written beyond the buffer. -/
theorem fst_eq_ok_iff {r : ℤ × List UInt8} (h : removeChunks checkCrc cursor buf = some r) :
    r.1 = dnp3Ok ↔ ∀ k, ¬Bad checkCrc cursor k := by
  induction hn : cursor.length using Nat.strong_induction_on generalizing cursor buf with
  | h n ih =>
    subst hn
    have hfail : ¬dnp3Fail = dnp3Ok := by decide
    by_cases hshort : cursor.length ≤ 2
    · rw [removeChunks_of_short hshort] at h
      cases h
      simp only [true_iff]
      exact fun k => not_bad_of_length (by omega)
    have hzero := bad_zero_iff checkCrc (by omega : 2 < cursor.length)
    by_cases hlong : 18 < cursor.length
    · rw [removeChunks_of_long hlong] at h
      split_ifs at h with hbad
      · cases h
        simp only [hfail, false_iff, not_forall, not_not]
        exact ⟨0, hzero.2 hbad⟩
      · cases hcopy : copy buf (cursor.take 16) with
        | none => rw [hcopy] at h; cases h
        | some buf' =>
          rw [hcopy] at h
          rw [ih _ (by rw [List.length_drop]; omega) h rfl]
          refine ⟨fun hall k => ?_, fun hall k => ?_⟩
          · rcases k with _ | k
            · rwa [hzero]
            · rw [← bad_drop_iff]
              exact hall k
          · rw [bad_drop_iff]
            exact hall (k + 1)
    · rw [removeChunks_of_leftover (by omega) (by omega)] at h
      rw [List.take_of_length_le (by omega : cursor.length ≤ 18)] at hzero
      split_ifs at h with hbad
      · cases h
        simp only [hfail, false_iff, not_forall, not_not]
        exact ⟨0, hzero.2 hbad⟩
      · obtain ⟨buf', -, rfl⟩ := Option.map_eq_some_iff.1 h
        simp only [true_iff]
        intro k
        rcases k with _ | k
        · rwa [hzero]
        · exact not_bad_of_length (by omega)

/-! ### PDUs -/

variable {pdu : List UInt8}

/-- A block of user data is not shorter than a byte and its code, and it passes. -/
theorem isBlock_iff {p : List UInt8} (hp : p.length ≤ 18) :
    IsBlock p ↔ 2 < p.length ∧ dnp3CheckCRC p ≠ dnp3Fail := by
  rw [dnp3CheckCRC_iff]
  constructor
  · rintro ⟨data, hne, -, rfl⟩
    have := List.length_pos_iff.2 hne
    exact ⟨by rw [length_block]; omega, data, rfl⟩
  · rintro ⟨hlt, data, rfl⟩
    rw [length_block] at hp hlt
    exact ⟨data, List.length_pos_iff.1 (by omega), by unfold chunkSize; omega, rfl⟩

theorem length_piece (body : List UInt8) (k : ℕ) : (piece body k).length = min 18 (body.length - 18 * k) := by
  simp only [piece, chunkSize, crcSize, List.length_take, List.length_drop]

/-- The rounds in which nothing fails are over right blocks if no byte or two are left. -/
theorem isBlock_of_not_bad {body : List UInt8} (hbad : ∀ k, ¬Bad true body k)
    (hleft : body.length % 18 ≠ 1 ∧ body.length % 18 ≠ 2) {k : ℕ} (hk : 18 * k < body.length) :
    IsBlock (piece body k) := by
  have hlen := length_piece body k
  have hlt : 18 * k + 2 < body.length := by omega
  rw [isBlock_iff (by omega)]
  exact ⟨by omega, fun hfail => hbad k ⟨rfl, hlt, hfail⟩⟩

/-- A byte or two that are left are no block. -/
theorem exists_not_isBlock (body : List UInt8) (hleft : body.length % 18 = 1 ∨ body.length % 18 = 2) :
    ∃ k, 18 * k < body.length ∧ ¬IsBlock (piece body k) := by
  refine ⟨body.length / 18, by omega, ?_⟩
  have hlen := length_piece body (body.length / 18)
  rw [isBlock_iff (by omega)]
  omega

theorem removeChunks_body_eq_none :
    removeChunks checkCrc (bodyOf pdu) [] = none ↔
      290 < (bodyOf pdu).length ∧ ∀ k ≤ bufSize / chunkSize, ¬Bad checkCrc (bodyOf pdu) k :=
  removeChunks_eq_none (m := 16) rfl

/-- A header with a wrong code. -/
theorem dnp3CheckRemoveCRC_of_header (h : checkCrc = true ∧ dnp3CheckCRC (headerOf pdu) = dnp3Fail) :
    dnp3CheckRemoveCRC checkCrc pdu = some (dnp3Fail, []) := by
  rw [dnp3CheckRemoveCRC_eq, if_pos h]

theorem dnp3CheckRemoveCRC_of_not_header (h : ¬(checkCrc = true ∧ dnp3CheckCRC (headerOf pdu) = dnp3Fail)) :
    dnp3CheckRemoveCRC checkCrc pdu = removeChunks checkCrc (bodyOf pdu) [] := by
  rw [dnp3CheckRemoveCRC_eq, if_neg h]

/-- A check that fails while there is room. -/
theorem removesSafely_of_failsInTime (h : FailsInTime checkCrc pdu) : RemovesSafely checkCrc pdu := by
  obtain ⟨hcheck, hfail⟩ := h
  by_cases hheader : checkCrc = true ∧ dnp3CheckCRC (headerOf pdu) = dnp3Fail
  · exact ⟨_, dnp3CheckRemoveCRC_of_header hheader, fun _ hok => absurd hok (by decide)⟩
  obtain ⟨k, hk, hbad⟩ := hfail.resolve_left fun h => hheader ⟨hcheck, h⟩
  cases hr : removeChunks checkCrc (bodyOf pdu) [] with
  | none => exact absurd hbad ((removeChunks_body_eq_none.1 hr).2 k hk)
  | some r =>
    refine ⟨r, (dnp3CheckRemoveCRC_of_not_header hheader).trans hr, fun _ hok => ?_⟩
    exact absurd hbad ((fst_eq_ok_iff hr).1 hok k)

/-- A PDU that the buffer has room for. -/
theorem removesSafely_of_length (hlen : (bodyOf pdu).length ≤ 290)
    (hleft : checkCrc = true → (bodyOf pdu).length % 18 ≠ 1 ∧ (bodyOf pdu).length % 18 ≠ 2) :
    RemovesSafely checkCrc pdu := by
  by_cases hheader : checkCrc = true ∧ dnp3CheckCRC (headerOf pdu) = dnp3Fail
  · exact ⟨_, dnp3CheckRemoveCRC_of_header hheader, fun _ hok => absurd hok (by decide)⟩
  cases hr : removeChunks checkCrc (bodyOf pdu) [] with
  | none =>
    have := (removeChunks_body_eq_none.1 hr).1
    omega
  | some r =>
    refine ⟨r, (dnp3CheckRemoveCRC_of_not_header hheader).trans hr, fun hcheck hok => ⟨?_, fun k hk => ?_⟩⟩
    · rw [← dnp3CheckCRC_iff]
      exact fun h => hheader ⟨hcheck, h⟩
    · subst hcheck
      exact isBlock_of_not_bad ((fst_eq_ok_iff hr).1 hok) (hleft rfl) hk

theorem removesSafely_iff :
    RemovesSafely checkCrc pdu ↔ FailsInTime checkCrc pdu ∨ (bodyOf pdu).length ≤ 290 ∧
      (checkCrc = true → (bodyOf pdu).length % 18 ≠ 1 ∧ (bodyOf pdu).length % 18 ≠ 2) := by
  constructor
  · rintro ⟨r, hr, hblocks⟩
    by_cases hfails : FailsInTime checkCrc pdu
    · exact .inl hfails
    have hheader : ¬(checkCrc = true ∧ dnp3CheckCRC (headerOf pdu) = dnp3Fail) :=
      fun h => hfails ⟨h.1, .inl h.2⟩
    have hnone : ∀ k ≤ bufSize / chunkSize, ¬Bad checkCrc (bodyOf pdu) k :=
      fun k hk hbad => hfails ⟨hbad.1, .inr ⟨k, hk, hbad⟩⟩
    rw [dnp3CheckRemoveCRC_of_not_header hheader] at hr
    have hlen : (bodyOf pdu).length ≤ 290 := by
      by_contra hlt
      rw [removeChunks_body_eq_none.2 ⟨by omega, hnone⟩] at hr
      cases hr
    refine .inr ⟨hlen, fun hcheck => ?_⟩
    have hok : r.1 = dnp3Ok := by
      refine (fst_eq_ok_iff hr).2 fun k => ?_
      by_cases hk : k ≤ bufSize / chunkSize
      · exact hnone k hk
      · simp only [bufSize, chunkSize] at hk
        exact not_bad_of_length (by omega)
    by_contra hleft
    obtain ⟨k, hk, hnot⟩ := exists_not_isBlock (bodyOf pdu) (by omega)
    exact hnot ((hblocks hcheck hok).2 k hk)
  · rintro (hfails | ⟨hlen, hleft⟩)
    · exact removesSafely_of_failsInTime hfails
    · exact removesSafely_of_length hlen hleft

/-- A frame that `DNP3Paf` finds, with nothing in front of it. -/
theorem linkFrame_removesSafely (checkCrc : Bool) (f : LinkFrame) : RemovesSafely checkCrc f.bytes := by
  have hsize := f.size
  have hge := f.len_ge
  have hlt := f.len.toNat_lt
  have hlen : (bodyOf f.bytes).length = f.body.length - 7 := by
    rw [bodyOf, LinkFrame.bytes, List.length_drop]
    simp [linkHeaderSize]
  exact removesSafely_iff.2 (.inr ⟨by omega, fun _ => by omega⟩)

theorem length_blocks (u : List UInt8) : (blocks u).length = u.length + 2 * ((u.length + 15) / 16) := by
  induction hn : u.length using Nat.strong_induction_on generalizing u with
  | h n ih =>
    subst hn
    rcases eq_or_ne u [] with rfl | hu
    · simp [blocks_nil]
    have hpos := List.length_pos_iff.2 hu
    rw [blocks_of_ne_nil hu, List.length_append, length_block,
      ih _ (by simp only [chunkSize, List.length_drop]; omega) (u.drop chunkSize) rfl]
    simp only [chunkSize, List.length_take, List.length_drop]
    omega

/-- `DNP3Paf` finds the frames of user data. -/
theorem exists_linkFrame (h : LinkHeader) (hlen : u.length ≤ dnp3MaxTransportLen) :
    ∃ f : LinkFrame, f.bytes = linkFrame h u := by
  have hlen' : u.length ≤ 250 := hlen
  have hlength : (UInt8.ofNat (u.length + headerRemainderLen)).toNat = u.length + 5 := by
    rw [UInt8.toNat_ofNat', headerRemainderLen, Nat.mod_eq_of_lt (by omega)]
  refine ⟨⟨.ofNat (u.length + headerRemainderLen), (linkFrame h u).drop 3, by omega, ?_⟩, rfl⟩
  rw [hlength, List.length_drop, linkFrame, List.length_append, length_block, length_headerBytes, length_blocks]
  unfold linkHeaderSize
  omega

/-- **Removing the CRCs**: the user data of a frame come back; and for a PDU of any length nothing is written beyond
the buffer, and `DNP3_OK` says that each block has the right code, exactly if a check fails while there is room, or
there is room for all of it and, where the CRCs are checked, no byte or two are left behind the last block. -/
theorem dnp3CheckRemoveCRC_iff (checkCrc : Bool) :
    (∀ h u, u ≠ [] → u.length ≤ dnp3MaxTransportLen →
      dnp3CheckRemoveCRC checkCrc (linkFrame h u) = some (dnp3Ok, u)) ∧
    ∀ pdu, linkHeaderSize + 2 ≤ pdu.length → pdu.length < 65536 →
      (RemovesSafely checkCrc pdu ↔ FailsInTime checkCrc pdu ∨ (bodyOf pdu).length ≤ 290 ∧
        (checkCrc = true → (bodyOf pdu).length % 18 ≠ 1 ∧ (bodyOf pdu).length % 18 ≠ 2)) :=
  ⟨fun h _ _ hlen => dnp3CheckRemoveCRC_linkFrame checkCrc h (hlen.trans (by decide)),
    fun _ _ _ => removesSafely_iff⟩

theorem dnp3CheckRemoveCRC_iff_junk :
    ¬RemovesSafely true (block (List.replicate 8 0x20) ++ [0x05, 0x64]) ∧
      dnp3CheckRemoveCRC true (linkFrame ⟨0xc4, 1, 2⟩ [0xc0]) = some (dnp3Ok, [0xc0]) := by
  refine ⟨fun h => ?_, (dnp3CheckRemoveCRC_iff true).1 ⟨0xc4, 1, 2⟩ [0xc0] (by decide) (by decide)⟩
  rcases ((dnp3CheckRemoveCRC_iff true).2 _ (by decide) (by decide)).1 h with h | h
  · rcases h.2 with h | ⟨k, -, hbad⟩
    · exact absurd h (by decide +kernel)
    · exact not_bad_of_length (Nat.le_add_left _ _ : 2 ≤ 18 * k + 2) hbad
  · exact (h.2 rfl).2 (by decide)

/-- Some blanks in front of a frame without user data. -/
def blanks : List UInt8 := List.replicate 300 0x20 ++ shortFrame.bytes

/-- What is in front of a frame is flushed with it, and its length has no bound. -/
theorem blanks_overrun_buf :
    ¬∀ checkCrc pdu, pdu.length < 65536 → dnp3Paf.flushPoints [pdu] = [pdu.length] → RemovesSafely checkCrc pdu := by
  intro h
  obtain ⟨r, hr, -⟩ := h false blanks (by decide +kernel) (by decide +kernel)
  have hnone : removeChunks false (bodyOf blanks) [] = none :=
    removeChunks_body_eq_none.2 ⟨by decide +kernel, fun k _ hbad => absurd hbad.1 (by decide)⟩
  rw [dnp3CheckRemoveCRC_of_not_header (by decide), hnone] at hr
  cases hr

end Snort.Dnp3
