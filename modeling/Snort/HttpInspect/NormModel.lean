import Snort.HttpInspect.ChunkModel

/-!
# URI normalisation: `hi_norm.c`

`hi_norm_uri` reads the URI byte by byte through the decoders of `GetDecodedByte`, and resolves the
directories on the way to the normalisation buffer.

* `getPtr`, `uDecode`, `percentDecode`, `getChar`, `utf8Decode`, `getByte`, `doubleDecode`,
  `getDecodedByte`: the decoders, one on top of the other;
* `dirTrav`, `dirSet`, `dirNorm`: the directories;
* `inspectUriChar`, `normLoop`, `hiNormUri`: the loop.

The input pointer is the list of the bytes that are left, and it is in bounds if the list is not empty.
The statistics, the event options with their events, `CheckLongDir` and `encodeType` are left out.
-/

namespace Snort.HttpInspect

open HiPaf (Byte chr)

/-- What the normalisation reads of `HTTPINSPECT_CONF`: the `on` of its options, and the Unicode map,
without the codepoints it gives no ASCII character. -/
structure HttpInspectConf where
  ascii : Bool := false
  doubleDecoding : Bool := false
  uEncoding : Bool := false
  utf8 : Bool := false
  bareByte : Bool := false
  iisUnicode : Bool := false
  iisUnicodeMap : ℕ → Option Byte := fun _ => none
  directory : Bool := false
  multipleSlash : Bool := false
  iisBackslash : Bool := false

/-- `NON_ASCII_CHAR`. -/
def nonAsciiChar : Byte := 0xff

/-- `MAX_DIRS`. -/
def maxDirs : ℕ := 2048

/-- What the routines for the bytes of an encoding return. -/
inductive Got
  | endOfBuffer
  | doubleEncoding
  | char (c : Byte)
  deriving DecidableEq

variable (conf : HttpInspectConf)

/-! ### The decoders -/

/-- `GetPtr`. -/
def getPtr (p : List Byte) : Got × List Byte :=
  match p.tail with
  | [] => (.endOfBuffer, [])
  | c :: q =>
    (if conf.doubleDecoding ∧ c = chr '%' then .doubleEncoding else .char c, c :: q)

/-- What a codepoint above the single bytes is decoded to. -/
def iisUnicodeChar (iNorm : ℕ) : Byte :=
  if conf.iisUnicode then (conf.iisUnicodeMap iNorm).getD nonAsciiChar else nonAsciiChar

/-- The loop of `UDecode` over the digits, and what follows it. -/
def uLoop (getByte : List Byte → Got × List Byte) : ℕ → ℕ → List Byte → Got × List Byte
  | 0, iNorm, p => (.char (if iNorm > 0xff then iisUnicodeChar conf iNorm else iNorm), p)
  | iCtr + 1, iNorm, p =>
    match getByte p with
    | (.char c, q) =>
      match hexLookup c with
      | none => (.char nonAsciiChar, q)
      | some h => uLoop getByte iCtr (iNorm <<< 4 ||| h) q
    | got => got

/-- `UDecode`. -/
def uDecode (getByte : List Byte → Got × List Byte) (p : List Byte) : Got × List Byte :=
  uLoop conf getByte 4 0 p

/-- `PercentDecode`; there is no byte at the end of the buffer. -/
def percentDecode (p : List Byte) : Option Byte × List Byte :=
  match getPtr conf p with
  | (.endOfBuffer, q) => (none, q)
  | (.doubleEncoding, _) => (some (chr '%'), p)
  | (.char c, q) =>
    match hexLookup c with
    | none =>
      if conf.uEncoding ∧ (c = chr 'U' ∨ c = chr 'u') then
        match uDecode conf (getPtr conf) q with
        | (.endOfBuffer, q) => (none, q)
        | (.doubleEncoding, _) => (some (chr '%'), p)
        | (.char c, q) => (some c, q)
      else (some nonAsciiChar, q)
    | some h =>
      match getPtr conf q with
      | (.endOfBuffer, q) => (none, q)
      | (.doubleEncoding, _) => (some (chr '%'), p)
      | (.char d, q) =>
        match hexLookup d with
        | none => (some nonAsciiChar, q)
        | some l => (some (BitVec.ofNat 8 (h <<< 4 ||| l)), q)

/-- `GetChar`: the byte, `bare_byte` and the pointer.  `bare_byte` is not set if the buffer ends in an
encoding; nothing reads it then. -/
def getChar (p : List Byte) : Option (Byte × Bool × List Byte) :=
  match p with
  | [] => none
  | c :: q =>
    if c = chr '%' ∧ conf.ascii then
      match percentDecode conf p with
      | (none, q) => some (nonAsciiChar, false, q)
      | (some c, q) => some (c, false, q.tail)
    else some (c, !(conf.bareByte ∧ c > 0x7f), q)

/-- The loop of `UTF8Decode` over the bytes behind the first, and what follows it. -/
def utf8Loop : ℕ → ℕ → List Byte → Byte × List Byte
  | 0, iNorm, p => (if iNorm > 0x7f then iisUnicodeChar conf iNorm else iNorm, p)
  | iCtr + 1, iNorm, p =>
    match getChar conf p with
    | none => (nonAsciiChar, p)
    | some (c, bare, q) =>
      if c = nonAsciiChar ∨ bare then (nonAsciiChar, q)
      else if c &&& 0xc0 = 0x80 then utf8Loop iCtr (iNorm <<< 6 ||| (c &&& 0x3f).toNat) q
      else (nonAsciiChar, q)

/-- `UTF8Decode`. -/
def utf8Decode (iFirst : Byte) (p : List Byte) : Byte × List Byte :=
  if iFirst &&& 0xe0 = 0xc0 then utf8Loop conf 1 (iFirst &&& 0x1f).toNat p
  else if iFirst &&& 0xf0 = 0xe0 then utf8Loop conf 2 (iFirst &&& 0x0f).toNat p
  else (iFirst, p)

/-- `UnicodeDecode`. -/
def unicodeDecode (iFirst : Byte) (p : List Byte) : Byte × List Byte :=
  if conf.iisUnicode ∨ conf.utf8 then utf8Decode conf iFirst p else (iFirst, p)

/-- `GetByte`. -/
def getByte (p : List Byte) : Option (Byte × List Byte) :=
  match getChar conf p with
  | none => none
  | some (c, bare, q) =>
    if c ≠ nonAsciiChar ∧ c &&& 0x80 ≠ 0 ∧ ¬ bare then some (unicodeDecode conf c q)
    else some (c, q)

/-- `GetByte`, as `UDecode` calls it. -/
def gotByte (p : List Byte) : Got × List Byte :=
  match getByte conf p with
  | none => (.endOfBuffer, p)
  | some (c, q) => (.char c, q)

/-- `DoubleDecode`. -/
def doubleDecode (p : List Byte) : Byte × List Byte :=
  match getByte conf p with
  | none => (nonAsciiChar, p)
  | some (c, q) =>
    match hexLookup c with
    | none =>
      if conf.uEncoding ∧ (c = chr 'U' ∨ c = chr 'u') then
        match uDecode conf (gotByte conf) q with
        | (.char c, q) => (c, q)
        | (_, q) => (nonAsciiChar, q)
      else (c, q)
    | some h =>
      match getByte conf q with
      | none => (nonAsciiChar, q)
      | some (d, q) =>
        match hexLookup d with
        | none => (d, q)
        | some l => (BitVec.ofNat 8 (h <<< 4 ||| l), q)

/-- The replacements at the end of `GetDecodedByte`. -/
def replaceChar (c : Byte) : Byte :=
  let c := if conf.iisBackslash ∧ c = chr '\\' then chr '/' else c
  if c = chr '+' then chr ' ' else c

/-- `GetDecodedByte`. -/
def getDecodedByte (p : List Byte) : Option (Byte × List Byte) :=
  match getByte conf p with
  | none => none
  | some (c, q) =>
    let (c, q) := if conf.doubleDecoding ∧ c = chr '%' then doubleDecode conf q else (c, q)
    some (replaceChar conf c, q)

/-! ### The pointer moves on -/

section Progress

variable {conf}

theorem getPtr_eq {p q : List Byte} {got : Got} (h : getPtr conf p = (got, q)) : q = p.tail := by
  unfold getPtr at h
  cases htail : p.tail with
  | nil => simp_all
  | cons c r => simp_all

theorem getPtr_le {p q : List Byte} {got : Got} (h : getPtr conf p = (got, q)) :
    q.length ≤ p.length := by
  rw [getPtr_eq h, List.length_tail]
  exact Nat.sub_le _ _

theorem getPtr_end {p q : List Byte} (h : getPtr conf p = (.endOfBuffer, q)) : q = [] := by
  unfold getPtr at h
  cases htail : p.tail with
  | nil => simp_all
  | cons c r =>
    rw [htail] at h
    dsimp only at h
    split_ifs at h
    all_goals simp at h

theorem uLoop_le {getByte : List Byte → Got × List Byte}
    (hget : ∀ {p q got}, getByte p = (got, q) → q.length ≤ p.length) {iCtr iNorm : ℕ}
    {p q : List Byte} {got : Got} (h : uLoop conf getByte iCtr iNorm p = (got, q)) :
    q.length ≤ p.length := by
  fun_induction uLoop conf getByte iCtr iNorm p with
  | case1 iNorm p =>
    obtain ⟨-, rfl⟩ := Prod.mk.inj h
    exact le_rfl
  | case2 iNorm iCtr p c r hr =>
    obtain ⟨-, rfl⟩ := Prod.mk.inj h
    exact hget hr
  | case3 iNorm iCtr p c r hr d hd ih => exact (ih h).trans (hget hr)
  | case4 iNorm iCtr p => exact hget h

/-- The buffer ends in the loop only where a byte is missing. -/
theorem uLoop_end {getByte : List Byte → Got × List Byte}
    (hget : ∀ {p q}, getByte p = (.endOfBuffer, q) → q = []) {iCtr iNorm : ℕ} {p q : List Byte}
    (h : uLoop conf getByte iCtr iNorm p = (.endOfBuffer, q)) : q = [] := by
  fun_induction uLoop conf getByte iCtr iNorm p with
  | case1 iNorm p => simp at h
  | case2 iNorm iCtr p c r hr => simp at h
  | case3 iNorm iCtr p c r hr d hd ih => exact ih h
  | case4 iNorm iCtr p => exact hget h

theorem uDecode_le {p q : List Byte} {got : Got} (h : uDecode conf (getPtr conf) p = (got, q)) :
    q.length ≤ p.length :=
  uLoop_le getPtr_le h

theorem percentDecode_le (conf) (p : List Byte) : (percentDecode conf p).2.length ≤ p.length := by
  fun_cases percentDecode conf p with
  | case1 q h => exact getPtr_le h
  | case2 => exact le_rfl
  | case3 c q h hc hu r hr => exact (uDecode_le hr).trans (getPtr_le h)
  | case4 => exact le_rfl
  | case5 c q h hc hu d r hr => exact (uDecode_le hr).trans (getPtr_le h)
  | case6 c q h => exact getPtr_le h
  | case7 c q h d hd r hr => exact (getPtr_le hr).trans (getPtr_le h)
  | case8 => exact le_rfl
  | case9 c q h d hd e r hr => exact (getPtr_le hr).trans (getPtr_le h)
  | case10 c q h d hd e r hr => exact (getPtr_le hr).trans (getPtr_le h)

theorem percentDecode_end (conf) (p : List Byte) :
    (percentDecode conf p).1 = none → (percentDecode conf p).2 = [] := by
  fun_cases percentDecode conf p with
  | case1 q h => exact fun _ => getPtr_end h
  | case3 c q h hc hu r hr => exact fun _ => uLoop_end getPtr_end hr
  | case7 c q h d hd r hr => exact fun _ => getPtr_end hr
  | _ => simp

theorem getChar_lt {p q : List Byte} {c : Byte} {bare : Bool}
    (h : getChar conf p = some (c, bare, q)) : q.length < p.length := by
  unfold getChar at h
  cases p with
  | nil => simp at h
  | cons d p =>
    dsimp only at h
    split_ifs at h with hd
    · have hle := percentDecode_le conf (d :: p)
      have hend := percentDecode_end conf (d :: p)
      split at h
      next r hr =>
        simp only [Option.some.injEq, Prod.mk.injEq] at h
        obtain ⟨-, -, rfl⟩ := h
        rw [hr] at hend
        obtain rfl : r = [] := hend rfl
        exact Nat.succ_pos _
      next e r hr =>
        simp only [Option.some.injEq, Prod.mk.injEq] at h
        obtain ⟨-, -, rfl⟩ := h
        rw [hr] at hle
        simp only [List.length_tail, List.length_cons] at hle ⊢
        omega
    · simp only [Option.some.injEq, Prod.mk.injEq] at h
      obtain ⟨-, -, rfl⟩ := h
      exact Nat.lt_succ_self _

theorem utf8Loop_le (iCtr iNorm : ℕ) (p : List Byte) :
    (utf8Loop conf iCtr iNorm p).2.length ≤ p.length := by
  fun_induction utf8Loop conf iCtr iNorm p with
  | case1 => exact le_rfl
  | case2 => exact le_rfl
  | case3 iNorm iCtr p c bare q hq => exact (getChar_lt hq).le
  | case4 iNorm iCtr p c bare q hq hc hc' ih => exact ih.trans (getChar_lt hq).le
  | case5 iNorm iCtr p c bare q hq => exact (getChar_lt hq).le

theorem unicodeDecode_le (iFirst : Byte) (p : List Byte) :
    (unicodeDecode conf iFirst p).2.length ≤ p.length := by
  unfold unicodeDecode utf8Decode
  split_ifs
  · exact utf8Loop_le _ _ _
  · exact utf8Loop_le _ _ _
  · exact le_rfl
  · exact le_rfl

theorem getByte_lt {p q : List Byte} {c : Byte} (h : getByte conf p = some (c, q)) :
    q.length < p.length := by
  unfold getByte at h
  split at h
  · simp at h
  next d bare r hr =>
    have hlt := getChar_lt hr
    split_ifs at h
    · obtain rfl : (unicodeDecode conf d r).2 = q := by rw [Option.some.inj h]
      exact (unicodeDecode_le d r).trans_lt hlt
    · obtain ⟨-, rfl⟩ := Prod.mk.inj (Option.some.inj h)
      exact hlt

theorem gotByte_le {p q : List Byte} {got : Got} (h : gotByte conf p = (got, q)) :
    q.length ≤ p.length := by
  unfold gotByte at h
  split at h
  · obtain ⟨-, rfl⟩ := Prod.mk.inj h
    exact le_rfl
  next c r hr =>
    obtain ⟨-, rfl⟩ := Prod.mk.inj h
    exact (getByte_lt hr).le

theorem doubleDecode_le (p : List Byte) : (doubleDecode conf p).2.length ≤ p.length := by
  have hu {q r : List Byte} {got : Got} (h : uDecode conf (gotByte conf) q = (got, r)) :
      r.length ≤ q.length := uLoop_le gotByte_le h
  fun_cases doubleDecode conf p with
  | case1 => exact le_rfl
  | case2 c q h hc hu' d r hr => exact (hu hr).trans (getByte_lt h).le
  | case3 c q h hc hu' got r hgot hr => exact (hu hr).trans (getByte_lt h).le
  | case4 c q h => exact (getByte_lt h).le
  | case5 c q h => exact (getByte_lt h).le
  | case6 c q h d hd e r hr => exact (getByte_lt hr).le.trans (getByte_lt h).le
  | case7 c q h d hd e r hr => exact (getByte_lt hr).le.trans (getByte_lt h).le

/-- `GetDecodedByte` takes at least one byte. -/
theorem getDecodedByte_lt {p q : List Byte} {c : Byte}
    (h : getDecodedByte conf p = some (c, q)) : q.length < p.length := by
  unfold getDecodedByte at h
  split at h
  · simp at h
  next d r hr =>
    have hlt := getByte_lt hr
    dsimp only at h
    split_ifs at h
    · obtain ⟨-, rfl⟩ := Prod.mk.inj (Option.some.inj h)
      exact (doubleDecode_le r).trans_lt hlt
    · obtain ⟨-, rfl⟩ := Prod.mk.inj (Option.some.inj h)
      exact hlt

end Progress

/-! ### The directories -/

/-- `URI_NORM_STATE`, with the bytes in front of `ub_ptr`.  The directory stack holds offsets in them,
the last one first. -/
structure UriNormState where
  uribuf : List Byte := []
  param : Bool := false
  dirTrack : List ℕ := []
  deriving DecidableEq

/-- `DirTrav`. -/
def dirTrav (s : UriNormState) : UriNormState :=
  match s.dirTrack with
  | [] => { s with uribuf := [] }
  | d :: dirTrack => { s with uribuf := s.uribuf.take d, dirTrack := dirTrack }

/-- `DirSet`. -/
def dirSet (s : UriNormState) : UriNormState :=
  { s with
    uribuf := s.uribuf ++ [chr '/']
    dirTrack :=
      if ¬ s.param ∧ s.dirTrack.length < maxDirs - 1 then s.uribuf.length :: s.dirTrack
      else s.dirTrack }

/-- What `DirNorm` returns. -/
inductive Dir
  | endOfBuffer
  | dirTrav
  | char (c : Byte)
  deriving DecidableEq

/-- `DirNorm`.  (It looks at nothing from `0` on; this is only faster.) -/
def dirNorm (param : Bool) (p : List Byte) : Dir × List Byte :=
  match _h : getDecodedByte conf p with
  | none => (.endOfBuffer, p)
  | some (c, q) =>
    if conf.multipleSlash ∧ c = chr '/' then dirNorm param q
    else if conf.directory ∧ c = chr '.' ∧ ¬ param then
      match _h' : getDecodedByte conf q with
      | none => (.char c, q)
      | some (d, r) =>
        if d = chr '.' then
          if (getDecodedByte conf r).map Prod.fst = some (chr '/') then (.dirTrav, r)
          else (.char c, q)
        else if d = chr '/' then dirNorm param r
        else (.char c, q)
    else (.char c, q)
termination_by p.length
decreasing_by
  · exact getDecodedByte_lt _h
  · exact (getDecodedByte_lt _h').trans (getDecodedByte_lt _h)

/-! ### The loop -/

/-- What `InspectUriChar` returns. -/
inductive Inspected
  | endOfBuffer
  | nonfatalErr
  | success
  deriving DecidableEq

/-- `InspectUriChar`, where the normalisation buffer has `size` bytes. -/
def inspectUriChar (size : ℕ) (iChar : Byte) (s : UriNormState) (p : List Byte) :
    Inspected × UriNormState × List Byte :=
  if s.dirTrack = [] ∧ iChar = chr ':' ∧ 2 < p.length ∧ p.take 2 = [chr '/', chr '/'] then
    if s.uribuf.length + 2 < size then
      (.success, { s with uribuf := s.uribuf ++ [iChar] }, p.tail)
    else (.endOfBuffer, s, p)
  else if iChar = chr '/' then
    match dirNorm conf s.param p with
    | (.dirTrav, q) => (.success, dirTrav s, q)
    | (.endOfBuffer, q) => (.endOfBuffer, dirSet s, q)
    | (.char iDir, q) =>
      let s := dirSet s
      if s.uribuf.length < size then
        (.success, { s with uribuf := s.uribuf ++ [iDir] }, q)
      else (.endOfBuffer, s, q)
  else (.nonfatalErr, { s with param := s.param ∨ iChar = chr '?' }, p)

theorem dirNorm_le (conf) (param : Bool) (p : List Byte) :
    (dirNorm conf param p).2.length ≤ p.length := by
  fun_induction dirNorm conf param p with
  | case1 => exact le_rfl
  | case2 p c q h _ ih => exact ih.trans (getDecodedByte_lt h).le
  | case3 p c q h => exact (getDecodedByte_lt h).le
  | case4 p c q h _ _ r _ hr => exact ((getDecodedByte_lt hr).trans (getDecodedByte_lt h)).le
  | case5 p c q h => exact (getDecodedByte_lt h).le
  | case6 p c q h _ _ r hr _ ih =>
    exact ih.trans ((getDecodedByte_lt hr).trans (getDecodedByte_lt h)).le
  | case7 p c q h => exact (getDecodedByte_lt h).le
  | case8 p c q h => exact (getDecodedByte_lt h).le

theorem inspectUriChar_le {conf} {size : ℕ} {iChar : Byte} {s s' : UriNormState} {r : Inspected}
    {p q : List Byte} (h : inspectUriChar conf size iChar s p = (r, s', q)) :
    q.length ≤ p.length := by
  have hdir := dirNorm_le conf s.param p
  obtain rfl : (inspectUriChar conf size iChar s p).2.2 = q := by rw [h]
  fun_cases inspectUriChar conf size iChar s p with
  | case1 => simp
  | case3 _ _ q h => simpa [h] using hdir
  | case4 _ _ q h => simpa [h] using hdir
  | case5 _ _ c q h => simpa [h] using hdir
  | case6 _ _ c q h => simpa [h] using hdir
  | _ => exact le_rfl

/-- The loop of `hi_norm_uri`. -/
def normLoop (size : ℕ) (s : UriNormState) (p : List Byte) : UriNormState :=
  if s.uribuf.length < size then
    match _h : getDecodedByte conf p with
    | none => s
    | some (iChar, q) =>
      match _h' : inspectUriChar conf size iChar s q with
      | (.endOfBuffer, s, _) => s
      | (.nonfatalErr, s, q) => normLoop size { s with uribuf := s.uribuf ++ [iChar] } q
      | (.success, s, q) => normLoop size s q
  else s
termination_by p.length
decreasing_by
  · exact (inspectUriChar_le _h').trans_lt (getDecodedByte_lt _h)
  · exact (inspectUriChar_le _h').trans_lt (getDecodedByte_lt _h)

/-- `hi_norm_uri`, where the normalisation buffer has `size` bytes: what is put there, and if it
returns `HI_SUCCESS`. -/
def hiNormUri (size : ℕ) (uri : List Byte) : List Byte × Bool :=
  let uribuf := (normLoop conf size {} uri).uribuf
  (uribuf, ¬ (uribuf.length > uri.length ∨ uribuf.length < 1))

end Snort.HttpInspect
