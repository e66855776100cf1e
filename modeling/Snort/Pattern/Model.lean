import Snort.Lib.CInt
import Snort.Mstring.Model

/-!
# Content options: `sp_pattern_match.c`

The search of a content in a buffer, and the two option functions that call it.  Pointers are addresses,
`NULL` is `none`; the address of a buffer plus an `int` does not wrap around.  A search that would read
outside of the buffer gives `none`.
-/

namespace Snort.Pattern

open CInt Mstring

structure PatternMatchData where
  offset : Int32
  depth : Int32
  distance : Int32
  within : UInt32
  offsetVar : Int8
  depthVar : Int8
  distanceVar : Int8
  withinVar : Int8
  rawbytes : Bool
  useDoe : Bool
  /-- `nocase`, and `search = uniSearchCI`. -/
  nocase : Bool
  uriBuffer : ℕ
  exceptionFlag : BitVec 8
  replaceBuf : Option (List Byte)
  replaceDepth : ℤ
  patternBuf : List Byte
  skipStride : Byte → ℕ
  shiftStride : ℕ → ℕ
  patternMaxJumpSize : ℕ
  /-- `make_precomp`. -/
  skip_eq : skipStride = makeSkip patternBuf
  shift_eq : makeShift patternBuf = some shiftStride
  /-- The size is used as an `int`. -/
  size_lt : patternBuf.length < 2 ^ 31

namespace PatternMatchData

def patternSize (pmd : PatternMatchData) : ℕ := pmd.patternBuf.length

/-- What the search does to the bytes of the buffer. -/
def fold (pmd : PatternMatchData) : Byte → Byte := if pmd.nocase then toupper else id

end PatternMatchData

/-- A buffer of the packet. -/
structure Buffer where
  start : ℤ
  bytes : List Byte

def Buffer.stop (buf : Buffer) : ℤ := buf.start + buf.bytes.length

/-! ### The cursor -/

def DOE_BUF_URI : BitVec 8 := 0x01
def DOE_BUF_STD : BitVec 8 := 0x02

structure Doe where
  doePtr : Option ℤ
  doeBufFlags : BitVec 8

/-- `UpdateDoePtr(ptr, 0)`. -/
def Doe.updateDoePtr (doe : Doe) (ptr : Option ℤ) : Doe := { doe with doePtr := ptr }

def setDoePtr (ptr : ℤ) (type : BitVec 8) : Doe := ⟨some ptr, type⟩

/-! ### The search -/

section Search

-- `extracted_values`
variable (extracted : Int8 → UInt32)

def NUM_BYTE_EXTRACT_VARS : Int8 := 2

/-- One of the values that the search takes from the variables of `byte_extract`. -/
def getByteExtractValue {α : Type*} (var : Int8) (conv : UInt32 → α) (old : α) : α :=
  if 0 ≤ var ∧ var < NUM_BYTE_EXTRACT_VARS then conv (extracted var) else old

/-- The pattern data with the values of the variables. -/
def getByteExtractValues (pmd : PatternMatchData) : PatternMatchData :=
  { pmd with
    offset := getByteExtractValue extracted pmd.offsetVar UInt32.toInt32 pmd.offset
    depth := getByteExtractValue extracted pmd.depthVar UInt32.toInt32 pmd.depth
    distance := getByteExtractValue extracted pmd.distanceVar UInt32.toInt32 pmd.distance
    within := getByteExtractValue extracted pmd.withinVar id pmd.within }

def computeWithin (dlen : ℤ) (pmd : PatternMatchData) : ℤ :=
  if u32 dlen < pmd.within.toNat then
    if i32 pmd.patternSize ≤ dlen then dlen else -1
  else i32 pmd.within.toNat

def inBounds (start stop p : ℤ) : Bool := decide (start ≤ p ∧ p < stop)

/-- The bytes that the search is given. -/
def Buffer.region (buf : Buffer) (base depth : ℤ) : Option (List Byte) :=
  if buf.start ≤ base ∧ 0 ≤ depth ∧ base + depth ≤ buf.stop then
    some ((buf.bytes.drop (base - buf.start).toNat).take depth.toNat)
  else none

/-- `base_ptr` and `depth` behind the stateful start point. -/
def startPoint (data : Buffer) : Option ℤ → ℤ × ℤ
  | some doePtr => (doePtr, i32 (data.bytes.length - (doePtr - data.start)))
  | none => (data.start, data.bytes.length)

/-- `base_ptr` and `depth` in front of the tests. -/
def searchBase (data : Buffer) (pmd : PatternMatchData) (doePtr : Option ℤ) : ℤ × ℤ :=
  let (base, depth) := startPoint data doePtr
  let (base, depth) :=
    if pmd.distance ≠ 0 then (base + pmd.distance.toInt, i32 (depth - pmd.distance.toInt))
    else (base + pmd.offset.toInt, i32 (depth - pmd.offset.toInt))
  (base, if pmd.within ≠ 0 then computeWithin depth pmd else depth)

/-- `if(pmd->use_doe != 1) UpdateDoePtr(NULL, 0)`. -/
def startDoe (pmd : PatternMatchData) (doe : Doe) : Doe :=
  if pmd.useDoe then doe else doe.updateDoePtr none

/-- `mSearchCI` or `mSearch`. -/
def callSearch (pmd : PatternMatchData) (buf : List Byte) : Option (Bool × Option ℕ) :=
  if pmd.nocase then mSearchCI buf pmd.patternBuf pmd.skipStride pmd.shiftStride
  else mSearch buf pmd.patternBuf pmd.skipStride pmd.shiftStride

/-- Where the searches set the cursor. -/
def Doe.behind (doe : Doe) (base : ℤ) : Option ℕ → Doe
  | some found => doe.updateDoePtr (some (base + found))
  | none => doe

/-- The search of a region. -/
def searchRegion (data : Buffer) (pmd : PatternMatchData) (doe : Doe) (base depth : ℤ) :
    Option (ℤ × PatternMatchData × Doe) := do
  let buf ← data.region base depth
  let (success, found) ← callSearch pmd buf
  some (if success then 1 else 0, pmd, doe.behind base found)

/-- `depth` behind its tests. -/
def cutDepth (dlen : ℤ) (pmd : PatternMatchData) (depth : ℤ) : ℤ :=
  let depth := if dlen < depth then dlen else depth
  if 0 < pmd.depth.toInt ∧ pmd.depth.toInt < depth then pmd.depth.toInt else depth

/-- `uniSearch` and `uniSearchCI`: the answer, the pattern data and the cursor. -/
def uniSearchReal (data : Buffer) (pmd : PatternMatchData) (doe : Doe) :
    Option (ℤ × PatternMatchData × Doe) :=
  let dlen : ℤ := data.bytes.length
  let doe := startDoe pmd doe
  let pmd := getByteExtractValues extracted pmd
  let (base, depth) := searchBase data pmd doe.doePtr
  if ¬inBounds data.start data.stop base then some (-1, pmd, doe)
  else if depth < 0 then some (-1, pmd, doe)
  else
    let depth := cutDepth dlen pmd depth
    if ¬inBounds data.start data.stop (base + depth - 1) then some (0, pmd, doe)
    else searchRegion data pmd doe base depth

end Search

/-! ### Searching again -/

/-- The loop of `GetMaxJumpSize`, with the number of characters that are left. -/
def getMaxJumpLoop (data : List Byte) : ℕ → ℕ → ℕ → ℕ
  | 0, _, _ => data.length
  | left + 1, i, j =>
    if data[j]? ≠ data[i]? then getMaxJumpLoop data left (i + 1) 0
    else if i = data.length - 1 then data.length - j - 1
    else getMaxJumpLoop data left (i + 1) (j + 1)

def getMaxJumpSize (data : List Byte) : ℕ := getMaxJumpLoop data (data.length - 1) 1 0

/-- `PatternMatchAdjustRelativeOffsets`: the pattern data to search again with, if there is space left. -/
def patternMatchAdjustRelativeOffsets (orig dup : PatternMatchData) (currentCursor origCursor : ℤ) :
    Option PatternMatchData :=
  let startCursor := currentCursor - dup.patternSize + dup.patternMaxJumpSize
  if orig.depth ≠ 0 then
    if origCursor + dup.offset.toInt + dup.depth.toInt < startCursor + dup.patternSize then none
    else some { dup with
      depth := Int32.ofInt (dup.depth.toInt - (startCursor - (origCursor + dup.offset.toInt)))
      offset := Int32.ofInt (startCursor - origCursor) }
  else if orig.within ≠ 0 then
    if origCursor + dup.distance.toInt + dup.within.toNat < startCursor + dup.patternSize then none
    else some { dup with
      within := UInt32.ofNat (u32 (dup.within.toNat - (startCursor - (origCursor + dup.distance.toInt))))
      distance := Int32.ofInt (startCursor - origCursor) }
  else if orig.useDoe then some { dup with distance := Int32.ofInt (startCursor - origCursor) }
  else some { dup with offset := Int32.ofInt (startCursor - origCursor) }

/-- The loop of `detection_option_node_evaluate` around a content whose relative children fail each time:
where the content is found. -/
def contentLoop (extracted : Int8 → UInt32) (data : Buffer) (orig : PatternMatchData) (origDoe : Doe) :
    ℕ → PatternMatchData → Option (List ℤ)
  | 0, _ => none
  | fuel + 1, dup => do
    let (found, dup, doe) ← uniSearchReal extracted data dup origDoe
    if found ≠ 1 then some []
    else
      let cursor ← doe.doePtr
      let origPtr := if dup.useDoe then origDoe.doePtr.getD data.start else data.start
      match patternMatchAdjustRelativeOffsets orig dup cursor origPtr with
      | some next => (contentLoop extracted data orig origDoe fuel next).map ((cursor - dup.patternSize) :: ·)
      | none => some [cursor - dup.patternSize]

/-! ### The option functions -/

inductive OptionResult
  | noMatch
  | isMatch
  deriving DecidableEq

/-- What the two functions read of the packet and of the detection buffers; `alt_dsize` is not above
`dsize`. -/
structure Packet where
  data : ℤ
  bytes : List Byte
  altDsize : ℕ
  isLimitedDetect : Bool
  wasCooked : Bool
  detectBuffer : Option Buffer
  decodeBuffer : Option Buffer
  uriCount : ℕ
  uriBufs : List (Option Buffer)

/-- `found ^ exception_flag`, in an `int`. -/
def xorFlag (found : ℤ) (flag : BitVec 8) : ℤ := (BitVec.ofInt 32 found ^^^ flag.setWidth 32).toInt

section Options

variable (extracted : Int8 → UInt32)

/-- `dp` and `dsize` of `CheckANDPatternMatch`. -/
def payload (pmd : PatternMatchData) (p : Packet) : Buffer :=
  if pmd.rawbytes then ⟨p.data, p.bytes⟩
  else
    match p.detectBuffer, p.decodeBuffer with
    | some buf, _ => buf
    | none, some buf => buf
    | none, none => if p.isLimitedDetect then ⟨p.data, p.bytes.take p.altDsize⟩ else ⟨p.data, p.bytes⟩

/-- The cursor that `CheckANDPatternMatch` searches with. -/
def payloadDoe (doe : Doe) : Doe :=
  let doe := if doe.doeBufFlags &&& DOE_BUF_URI ≠ 0 then doe.updateDoePtr none else doe
  { doe with doeBufFlags := DOE_BUF_STD }

/-- The cursor that `CheckUriPatternMatch` searches a buffer with. -/
def uriDoe (pmd : PatternMatchData) (uri : Buffer) (doe : Doe) : Doe :=
  if ¬pmd.useDoe then doe.updateDoePtr none
  else if doe.doeBufFlags &&& DOE_BUF_URI = 0 then setDoePtr uri.start DOE_BUF_URI
  else doe

/-- `CheckANDPatternMatch`. -/
def checkANDPatternMatch (pmd : PatternMatchData) (p : Packet) (doe : Doe) :
    Option (OptionResult × PatternMatchData × Doe) := do
  let data := payload pmd p
  let (found, pmd, doe) ← uniSearchReal extracted data pmd (payloadDoe doe)
  let found := if found = -1 then 0 else xorFlag found pmd.exceptionFlag
  if found ≠ 0 then
    if pmd.replaceBuf.isSome ∧ ¬p.wasCooked then
      let detectDepth := i32 (doe.doePtr.getD 0 - pmd.patternSize - data.start)
      if detectDepth < 0 then return (.noMatch, pmd, doe)
      else return (.isMatch, { pmd with replaceDepth := detectDepth }, doe)
    else
      return (.isMatch, pmd, doe)
  else
    return (.noMatch, pmd, doe)

/-- The loop of `CheckUriPatternMatch`, from buffer `i` on. -/
def checkUriLoop (pmd : PatternMatchData) (doe : Doe) : ℕ → List (Option Buffer) →
    Option (OptionResult × PatternMatchData × Doe)
  | _, [] => some (.noMatch, pmd, doe)
  | i, buf :: bufs =>
    match buf with
    | none => checkUriLoop pmd doe (i + 1) bufs
    | some uri =>
      if uri.bytes.length = 0 then checkUriLoop pmd doe (i + 1) bufs
      else if pmd.uriBuffer.testBit i = false then checkUriLoop pmd doe (i + 1) bufs
      else do
        let (found, pmd, doe) ← uniSearchReal extracted uri pmd (uriDoe pmd uri doe)
        let found := xorFlag found pmd.exceptionFlag
        if 0 < found then return (.isMatch, pmd, { doe with doeBufFlags := DOE_BUF_URI })
        else checkUriLoop pmd doe (i + 1) bufs

/-- `CheckUriPatternMatch`. -/
def checkUriPatternMatch (pmd : PatternMatchData) (p : Packet) (doe : Doe) :
    Option (OptionResult × PatternMatchData × Doe) :=
  checkUriLoop extracted pmd doe 0 (p.uriBufs.take p.uriCount)

end Options

end Snort.Pattern
