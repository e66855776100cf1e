import Snort.Util.Strtoul
import Snort.Pattern.Window

/-!
# The option `byte_jump`: `sp_byte_jump.c`, `byte_extract.c`

* `byteExtract`, `stringExtract`: the value of a field of the payload, as a `uint32_t`;
* `jumpValue`: the value with the multiplier and the alignment;
* `byteJump`: the option function.

Pointers are addresses, as for the content options; an address of the payload plus 32-bit numbers does not
wrap around.

* `field`: the number of the field, exactly, where the field lies in the buffer;
* `exactTarget`: the position that the rule says, in integers;
* `WrapsBack`: the product is too large for 32 bits, and what is left of it leads into the buffer;
* **`byteJump_lands_iff`**: the option lands where the rule says if and only if the product does not wrap
  back.
-/

namespace Snort.ByteJump

open CInt Mstring Pattern Util

def BIG : Int8 := 0
def LITTLE : Int8 := 1

/-- `PARSELEN`. -/
def parseLen : ℤ := 10

/-- `ByteJumpData`.  A byte order function gets the offset of the field in the payload. -/
structure ByteJumpData where
  bytesToGrab : UInt32
  offset : Int32
  relativeFlag : Bool
  dataStringConvertFlag : Bool
  fromBeginningFlag : Bool
  alignFlag : Bool
  endianess : Int8
  base : UInt32
  multiplier : UInt32
  postOffset : Int32
  offsetVar : Int8
  byteOrderFunc : Option (ℤ → ℤ)

/-! ### Extraction -/

/-- The bytes at an address. -/
def bytesAt (data : Buffer) (ptr : ℤ) (n : ℕ) : List Byte :=
  (data.bytes.drop (ptr - data.start).toNat).take n

/-- The value of 1..4 bytes. -/
def bytesValue (endianess : Int8) : List Byte → Option ℕ
  | [b₀] => some b₀.toNat
  | [b₀, b₁] =>
    if endianess = LITTLE then some (b₀.toNat ||| b₁.toNat <<< 8)
    else some (b₀.toNat <<< 8 ||| b₁.toNat)
  | [b₀, b₁, b₂] =>
    if endianess = LITTLE then some (b₀.toNat ||| b₁.toNat <<< 8 ||| b₂.toNat <<< 16)
    else some (b₀.toNat <<< 16 ||| b₁.toNat <<< 8 ||| b₂.toNat)
  | [b₀, b₁, b₂, b₃] =>
    if endianess = LITTLE then some (b₀.toNat ||| b₁.toNat <<< 8 ||| b₂.toNat <<< 16 ||| b₃.toNat <<< 24)
    else some (b₀.toNat <<< 24 ||| b₁.toNat <<< 16 ||| b₂.toNat <<< 8 ||| b₃.toNat)
  | _ => none

/-- `byte_extract`; `none` for a failure. -/
def byteExtract (endianess : Int8) (bytesToGrab : ℤ) (data : Buffer) (ptr : ℤ) : Option ℕ :=
  if endianess ≠ LITTLE ∧ endianess ≠ BIG then none
  else if ¬inBounds data.start data.stop (ptr + (bytesToGrab - 1)) then none
  else if ¬inBounds data.start data.stop ptr then none
  else if 1 ≤ bytesToGrab ∧ bytesToGrab ≤ 4 then bytesValue endianess (bytesAt data ptr bytesToGrab.toNat)
  else none

/-- `string_extract`: the value and the number of characters read; `none` for a failure. -/
def stringExtract (bytesToGrab : ℤ) (base : ℕ) (data : Buffer) (ptr : ℤ) : Option (ℕ × ℕ) :=
  if bytesToGrab > parseLen ∨ bytesToGrab ≤ 0 then none
  else if ¬inBounds data.start data.stop (ptr + (bytesToGrab - 1)) then none
  else if ¬inBounds data.start data.stop ptr then none
  else snortStrToU32 (bytesAt data ptr bytesToGrab.toNat ++ [0]) base

/-- `value` and `payload_bytes_grabbed`. -/
def extract (bjd : ByteJumpData) (data : Buffer) (ptr : ℤ) : Option (UInt32 × ℕ) :=
  let bytesToGrab := i32 bjd.bytesToGrab.toNat
  if ¬bjd.dataStringConvertFlag then
    (byteExtract bjd.endianess bytesToGrab data ptr).map fun value => (.ofNat value, bjd.bytesToGrab.toNat)
  else
    (stringExtract bytesToGrab bjd.base.toNat data ptr).map fun r => (.ofNat r.1, r.2)

/-! ### The jump -/

/-- The value, with the multiplier, rounded up to a multiple of 4. -/
def jumpValue (bjd : ByteJumpData) (value : UInt32) : UInt32 :=
  let jump := if bjd.multiplier ≠ 0 then value * bjd.multiplier else value
  if bjd.alignFlag ∧ jump % 4 ≠ 0 then jump + (4 - jump % 4) else jump

/-- Where the field is, and whether the kind of the cursor is reset; `none` where the cursor is out of
bounds. -/
def fieldBase (bjd : ByteJumpData) (data : Buffer) (doe : Doe) : Option (ℤ × Bool) :=
  match bjd.relativeFlag, doe.doePtr with
  | true, some doePtr =>
    if inBounds data.start (data.stop + 1) doePtr then some (doePtr + bjd.offset.toInt, false) else none
  | _, _ => some (data.start + bjd.offset.toInt, true)

/-- The byte order that the function of the rule gives; `none` where it has none. -/
def byteOrder (bjd : ByteJumpData) (pdata base : ℤ) : Option Int8 :=
  match bjd.byteOrderFunc with
  | some order =>
    let endianess := Int8.ofInt (order (i32 (base - pdata)))
    if endianess = -1 then none else some endianess
  | none => some bjd.endianess

/-- Where the cursor is set, in front of the `post_offset`. -/
def jumpFrom (bjd : ByteJumpData) (data : Buffer) (doe : Doe) (base : ℤ) (reset : Bool) (value : UInt32)
    (grabbed : ℕ) : Doe :=
  if bjd.fromBeginningFlag then setDoePtr (data.start + (jumpValue bjd value).toNat) DOE_BUF_STD
  else ⟨some (base + grabbed + (jumpValue bjd value).toNat), if reset then DOE_BUF_STD else doe.doeBufFlags⟩

/-- The `post_offset`, and the only test of the position. -/
def checkTarget (data : Buffer) (bjd : ByteJumpData) (doe : Doe) : OptionResult × ByteJumpData × Doe :=
  let doe := doe.updateDoePtr (doe.doePtr.map (· + bjd.postOffset.toInt))
  (if doe.doePtr.any (inBounds data.start data.stop) then .isMatch else .noMatch, bjd, doe)

/-- The extraction of the field at `base`, and the jump. -/
def extractAndJump (data : Buffer) (bjd : ByteJumpData) (doe : Doe) (base : ℤ) (reset : Bool) :
    OptionResult × ByteJumpData × Doe :=
  match extract bjd data base with
  | none => (.noMatch, bjd, doe)
  | some (value, grabbed) => checkTarget data bjd (jumpFrom bjd data doe base reset value grabbed)

/-- `ByteJump` behind the value of the offset. -/
def findAndJump (pdata : ℤ) (data : Buffer) (bjd : ByteJumpData) (doe : Doe) :
    OptionResult × ByteJumpData × Doe :=
  match fieldBase bjd data doe with
  | none => (.noMatch, bjd, doe)
  | some (base, reset) =>
    match byteOrder bjd pdata base with
    | none => (.noMatch, { bjd with endianess := -1 }, doe)
    | some endianess => extractAndJump data { bjd with endianess := endianess } doe base reset

/-- The data with the value of the variable of the offset. -/
def withOffset (extracted : Int8 → UInt32) (bjd : ByteJumpData) : ByteJumpData :=
  { bjd with offset := getByteExtractValue extracted bjd.offsetVar UInt32.toInt32 bjd.offset }

/-- `ByteJump`; `extracted` has the `byte_extract` variables, `pdata` is the payload of the packet and `data`
the buffer that is looked at. -/
def byteJump (extracted : Int8 → UInt32) (pdata : ℤ) (data : Buffer) (bjd : ByteJumpData) (doe : Doe) :
    OptionResult × ByteJumpData × Doe :=
  findAndJump pdata data (withOffset extracted bjd) doe

/-! ## Where `byte_jump` lands -/

open CInt Mstring Pattern Util Numeral

/-! ### The position in integers -/

/-- The number in a field of characters, white space in front, and how many characters are read. -/
def fieldNumber (text : List Byte) (base : ℕ) : Option (ℕ × ℕ) :=
  let s := text.dropWhile Util.isspace
  if s.head? = some 45 then none
  else (numeral s base).map fun r => (r.1, (text.takeWhile Util.isspace).length + r.2)

/-- The number in a field of bytes. -/
def bytesNumber (endianess : Int8) (text : List Byte) : Option ℕ :=
  if endianess = LITTLE then some (value 256 (text.reverse.map BitVec.toNat))
  else if endianess = BIG then some (value 256 (text.map BitVec.toNat))
  else none

/-- The number in the field at `base`, and the bytes read; `none` where the field is not in the buffer, or
is no number. -/
def fieldAt (bjd : ByteJumpData) (endianess : Int8) (data : Buffer) (base : ℤ) : Option (ℕ × ℕ) :=
  let n := bjd.bytesToGrab.toNat
  if data.start ≤ base ∧ base + n ≤ data.stop ∧ 1 ≤ n then
    if bjd.dataStringConvertFlag then
      if n ≤ 10 then fieldNumber (bytesAt data base n) bjd.base.toNat else none
    else
      if n ≤ 4 then (bytesNumber endianess (bytesAt data base n)).map fun v => (v, n) else none
  else none

/-- Where the field is, its number, and the bytes read. -/
def field (pdata : ℤ) (data : Buffer) (bjd : ByteJumpData) (doe : Doe) : Option (ℤ × ℕ × ℕ) := do
  let (base, _) ← fieldBase bjd data doe
  let endianess ← byteOrder bjd pdata base
  let (v, n) ← fieldAt bjd endianess data base
  return (base, v, n)

/-- A number rounded up to a multiple of 4, with `align`. -/
def roundUp (bjd : ByteJumpData) (n : ℕ) : ℕ := if bjd.alignFlag then (n + 3) / 4 * 4 else n

/-- The jump, without bounds; no multiplier is the multiplier 1. -/
def exactJump (bjd : ByteJumpData) (v : ℕ) : ℕ :=
  roundUp bjd (v * if bjd.multiplier = 0 then 1 else bjd.multiplier.toNat)

/-- The position that a jump is counted from. -/
def origin (bjd : ByteJumpData) (data : Buffer) (base : ℤ) (n : ℕ) : ℤ :=
  (if bjd.fromBeginningFlag then data.start else base + n) + bjd.postOffset.toInt

/-- The position that the rule says. -/
def exactTarget (bjd : ByteJumpData) (data : Buffer) (base : ℤ) (v n : ℕ) : ℤ :=
  origin bjd data base n + exactJump bjd v

/-- The option matches just when there is a field and the position lies in the buffer, and sets the cursor
there. -/
def LandsExactly (extracted : Int8 → UInt32) (pdata : ℤ) (data : Buffer) (bjd : ByteJumpData)
    (doe : Doe) : Prop :=
  let out := byteJump extracted pdata data bjd doe
  let bjd := withOffset extracted bjd
  (out.1 = .isMatch ↔ ∃ base v n, field pdata data bjd doe = some (base, v, n) ∧
    data.Inside (exactTarget bjd data base v n)) ∧
  (out.1 = .isMatch → ∀ base v n, field pdata data bjd doe = some (base, v, n) →
    out.2.2.doePtr = some (exactTarget bjd data base v n))

/-- The jump of a value of 32 bits is too large for 32 bits, and its remainder leads into the buffer. -/
def WrapsBack (extracted : Int8 → UInt32) (pdata : ℤ) (data : Buffer) (bjd : ByteJumpData)
    (doe : Doe) : Prop :=
  let bjd := withOffset extracted bjd
  ∃ base v n, field pdata data bjd doe = some (base, v, n) ∧
    2 ^ 32 ≤ exactJump bjd (min v (2 ^ 32 - 1)) ∧
    data.Inside (origin bjd data base n + (exactJump bjd (min v (2 ^ 32 - 1)) % 2 ^ 32 : ℕ))

/-! ### Numbers in texts -/

section Texts

variable {p : Byte → Bool}

theorem takeWhile_concat {s : List Byte} {c : Byte} (hc : p c = false) :
    (s ++ [c]).takeWhile p = s.takeWhile p := by
  induction s with
  | nil => simp [hc]
  | cons d s ih => by_cases hd : p d <;> simp [hd, ih]

theorem dropWhile_concat {s : List Byte} {c : Byte} (hc : p c = false) :
    (s ++ [c]).dropWhile p = s.dropWhile p ++ [c] := by
  induction s with
  | nil => simp [hc]
  | cons d s ih => by_cases hd : p d <;> simp [hd, ih]

theorem head?_concat_zero (s : List Byte) {c : Byte} (hc : c ≠ 0) :
    (s ++ [0]).head? = some c ↔ s.head? = some c := by
  cases s with
  | nil => simpa using Ne.symm hc
  | cons d s => simp

theorem hasHexPrefix_concat_zero (s : List Byte) : hasHexPrefix (s ++ [0]) = hasHexPrefix s := by
  match s with
  | [] => rfl
  | [a] => simp [hasHexPrefix]
  | [a, b] => simp [hasHexPrefix, Util.digitValue]
  | a :: b :: c :: s => simp [hasHexPrefix]

theorem length_of_hasHexPrefix {s : List Byte} (h : hasHexPrefix s) : 2 ≤ s.length := by
  match s with
  | [] => simp [hasHexPrefix] at h
  | [a] => simp [hasHexPrefix] at h
  | _ :: _ :: _ => simp

/-- The zero byte that ends a text belongs to no number. -/
theorem numeral_concat_zero (s : List Byte) (base : ℕ) : numeral (s ++ [0]) base = numeral s base := by
  have hsign : (if (s ++ [0]).head? = some (43 : Byte) then 1 else 0) = if s.head? = some 43 then 1 else 0 := by
    simp only [head?_concat_zero s (by decide : (43 : Byte) ≠ 0)]
  have hle : (if s.head? = some (43 : Byte) then 1 else 0) ≤ s.length := by
    cases s with
    | nil => simp
    | cons c s => split <;> simp
  rw [numeral, numeral, hsign]
  generalize (if s.head? = some (43 : Byte) then 1 else 0) = sign at hle
  rw [List.drop_append_of_le_length hle]
  generalize s.drop sign = t
  have hbase : numeralBase (t ++ [0]) base = numeralBase t base := by
    simp only [numeralBase, hasHexPrefix_concat_zero, head?_concat_zero t (by decide : (48 : Byte) ≠ 0)]
  have hlead : (if numeralBase t base = 16 ∧ hasHexPrefix t = true then 2 else 0) ≤ t.length := by
    split
    · rename_i h
      exact length_of_hasHexPrefix h.2
    · exact Nat.zero_le _
  simp only [hbase, hasHexPrefix_concat_zero, List.drop_append_of_le_length hlead]
  by_cases hb : 36 < numeralBase t base
  · simp [hb]
  · rw [takeWhile_concat (by simpa [Util.digitValue] using hb)]

theorem numeral_of_not_digit {c : Byte} (hc : Util.digitValue c = 36) (hsign : c ≠ 43) (s : List Byte) (base : ℕ) :
    numeral (c :: s) base = none := by
  have hhex : hasHexPrefix (c :: s) = false := by
    have : c ≠ 48 := by
      rintro rfl
      simp [Util.digitValue] at hc
    simpa [hasHexPrefix] using fun h => absurd h this
  have hnone : ¬36 < numeralBase (c :: s) base → ¬Util.digitValue c < numeralBase (c :: s) base := by omega
  rw [numeral]
  simp only [List.head?_cons, Option.some.injEq, hsign, if_false, List.drop_zero, hhex, Bool.false_eq_true, and_false]
  by_cases hb : 36 < numeralBase (c :: s) base
  · rw [if_pos (Or.inr (Or.inl hb))]
  · rw [if_pos (Or.inr (Or.inr (by simp [hnone hb])))]

/-- The library function reads the number of the field, cut to 32 bits. -/
theorem snortStrToU32_eq (text : List Byte) (base : ℕ) :
    snortStrToU32 (text ++ [0]) base = (fieldNumber text base).map fun r => (min r.1 (2 ^ 32 - 1), r.2) := by
  have hspace : Util.isspace 0 = false := by decide
  rw [snortStrToU32, fieldNumber, dropWhile_concat hspace, takeWhile_concat hspace]
  generalize text.dropWhile Util.isspace = s
  by_cases hminus : s.head? = some 45
  · rw [if_pos (Or.inr ((head?_concat_zero s (by decide)).2 hminus)), if_pos hminus]
    rfl
  · rw [if_neg hminus]
    by_cases hzero : (s ++ [0]).head? = some 0
    · obtain ⟨t, ht⟩ : ∃ t, s ++ [0] = 0 :: t := by
        obtain ⟨c, t, ht⟩ := List.exists_cons_of_ne_nil (l := s ++ [0]) (by simp)
        exact ⟨t, by rw [ht, List.head?_cons, Option.some.injEq] at hzero; rw [ht, hzero]⟩
      have hnone := numeral_of_not_digit (c := 0) (by decide) (by decide) t base
      rw [← ht, numeral_concat_zero] at hnone
      rw [if_pos (Or.inl hzero), hnone]
      rfl
    · have hhead : ¬(s ++ [0]).head? = some 45 := fun h => hminus ((head?_concat_zero s (by decide)).1 h)
      rw [if_neg (by simp only [hzero, hhead, or_self, not_false_eq_true]), strtoul, numeral_concat_zero]
      cases numeral s base with
      | none => rfl
      | some r => simp [Nat.min_assoc]

end Texts

/-! ### The value of the field -/

theorem shift_or {a y k : ℕ} (h : y < 2 ^ k) : a <<< k ||| y = a * 2 ^ k + y := by
  rw [← Nat.shiftLeft_add_eq_or_of_lt h, Nat.shiftLeft_eq]

theorem or_shift {a y k : ℕ} (h : y < 2 ^ k) : y ||| a <<< k = a * 2 ^ k + y := by
  rw [Nat.or_comm, shift_or h]

theorem bytesValue_eq {endianess : Int8} (hend : endianess = LITTLE ∨ endianess = BIG) {l : List Byte}
    (h₁ : 1 ≤ l.length) (h₄ : l.length ≤ 4) : bytesValue endianess l = bytesNumber endianess l := by
  have hne : BIG ≠ LITTLE := by decide
  match l with
  | [] => simp at h₁
  | [b₀] => rcases hend with rfl | rfl <;> simp [bytesValue, bytesNumber, value, hne]
  | [b₀, b₁] =>
    have := b₀.isLt
    have := b₁.isLt
    rcases hend with rfl | rfl
    · simp only [bytesValue, bytesNumber, value, if_pos, List.map, List.reverse_cons, List.reverse_nil,
        List.nil_append, List.cons_append, List.foldl]
      rw [or_shift (by omega)]
      congr 1
      omega
    · simp only [bytesValue, bytesNumber, value, hne, if_false, if_pos, List.map, List.foldl]
      rw [shift_or (by omega)]
      congr 1
      omega
  | [b₀, b₁, b₂] =>
    have := b₀.isLt
    have := b₁.isLt
    have := b₂.isLt
    rcases hend with rfl | rfl
    · simp only [bytesValue, bytesNumber, value, if_pos, List.map, List.reverse_cons, List.reverse_nil,
        List.nil_append, List.cons_append, List.foldl]
      rw [or_shift (k := 8) (by omega), or_shift (by omega)]
      congr 1
      omega
    · simp only [bytesValue, bytesNumber, value, hne, if_false, if_pos, List.map, List.foldl, Nat.or_assoc]
      rw [shift_or (k := 8) (by omega), shift_or (by omega)]
      congr 1
      omega
  | [b₀, b₁, b₂, b₃] =>
    have := b₀.isLt
    have := b₁.isLt
    have := b₂.isLt
    have := b₃.isLt
    rcases hend with rfl | rfl
    · simp only [bytesValue, bytesNumber, value, if_pos, List.map, List.reverse_cons, List.reverse_nil,
        List.nil_append, List.cons_append, List.foldl]
      rw [or_shift (k := 8) (by omega), or_shift (k := 16) (by omega), or_shift (by omega)]
      congr 1
      omega
    · simp only [bytesValue, bytesNumber, value, hne, if_false, if_pos, List.map, List.foldl, Nat.or_assoc]
      rw [shift_or (k := 8) (by omega), shift_or (k := 16) (by omega), shift_or (by omega)]
      congr 1
      omega
  | _ :: _ :: _ :: _ :: _ :: _ =>
    simp only [List.length_cons] at h₄
    omega

theorem length_bytesAt {data : Buffer} {ptr : ℤ} {n : ℕ} (hstart : data.start ≤ ptr)
    (hstop : ptr + n ≤ data.stop) : (bytesAt data ptr n).length = n := by
  unfold Buffer.stop at hstop
  simp only [bytesAt, List.length_take, List.length_drop]
  omega

theorem bytesNumber_lt {endianess : Int8} {l : List Byte} {v : ℕ} (h₄ : l.length ≤ 4)
    (hv : bytesNumber endianess l = some v) : v < 2 ^ 32 := by
  have hlt : ∀ l' : List Byte, l'.length = l.length → value 256 (l'.map BitVec.toNat) < 2 ^ 32 := by
    intro l' hl'
    calc value 256 (l'.map BitVec.toNat) < 256 ^ (l'.map BitVec.toNat).length := value_lt (by
          intro d hd
          obtain ⟨b, -, rfl⟩ := List.mem_map.1 hd
          exact b.isLt)
      _ ≤ 256 ^ 4 := Nat.pow_le_pow_right (by norm_num) (by simpa [hl'] using h₄)
      _ = 2 ^ 32 := by norm_num
  unfold bytesNumber at hv
  split at hv
  · obtain rfl := Option.some.inj hv
    exact hlt _ (by simp)
  · split at hv
    · obtain rfl := Option.some.inj hv
      exact hlt _ rfl
    · contradiction

/-- The two tests of a field are one. -/
theorem boundsTests_eq {α : Type*} {data : Buffer} {ptr : ℤ} {n : ℕ} (h₁ : 1 ≤ n) (r : Option α) :
    (if ¬inBounds data.start data.stop (ptr + ((n : ℤ) - 1)) = true then none
      else if ¬inBounds data.start data.stop ptr = true then none else r) =
      if data.start ≤ ptr ∧ ptr + n ≤ data.stop then r else none := by
  simp only [inBounds, decide_eq_true_eq]
  split_ifs
  all_goals first | rfl | omega

theorem byteExtract_eq {endianess : Int8} {n : ℕ} (data : Buffer) (base : ℤ) (h₁ : 1 ≤ n) (h₄ : n ≤ 4) :
    byteExtract endianess n data base =
      if data.start ≤ base ∧ base + n ≤ data.stop then bytesNumber endianess (bytesAt data base n) else none := by
  have hsize : 1 ≤ (n : ℤ) ∧ (n : ℤ) ≤ 4 := by omega
  rw [byteExtract, boundsTests_eq h₁, if_pos hsize, Int.toNat_natCast]
  by_cases hend : endianess = LITTLE ∨ endianess = BIG
  · rw [if_neg (by tauto)]
    split_ifs with hin
    · have hlen := length_bytesAt hin.1 hin.2
      exact bytesValue_eq hend (by omega) (by omega)
    · rfl
  · have hbad : endianess ≠ LITTLE ∧ endianess ≠ BIG := by tauto
    rw [if_pos hbad, bytesNumber, if_neg hbad.1, if_neg hbad.2, ite_self]

theorem stringExtract_eq {n base : ℕ} (data : Buffer) (ptr : ℤ) (h₁ : 1 ≤ n) (h₁₀ : n ≤ 10) :
    stringExtract n base data ptr =
      if data.start ≤ ptr ∧ ptr + n ≤ data.stop then
        (fieldNumber (bytesAt data ptr n) base).map fun r => (min r.1 (2 ^ 32 - 1), r.2)
      else none := by
  have hsize : ¬((n : ℤ) > parseLen ∨ (n : ℤ) ≤ 0) := by
    unfold parseLen
    omega
  rw [stringExtract, if_neg hsize, boundsTests_eq h₁, Int.toNat_natCast, snortStrToU32_eq]

/-- A number of bytes that is not one of the numbers of a field is refused. -/
theorem extract_of_size {bjd : ByteJumpData} {data : Buffer} {base : ℤ}
    (h : bjd.bytesToGrab.toNat = 0 ∨ (if bjd.dataStringConvertFlag then 10 else 4) < bjd.bytesToGrab.toNat) :
    extract bjd data base = none := by
  have hlt := bjd.bytesToGrab.toNat_lt
  have hint : i32 bjd.bytesToGrab.toNat ≤ 0 ∨
      (if bjd.dataStringConvertFlag then 10 else 4) < i32 bjd.bytesToGrab.toNat := by
    unfold i32
    split at h <;> simp_all <;> omega
  unfold extract
  cases hflag : bjd.dataStringConvertFlag with
  | true =>
    simp only [hflag, if_true] at hint
    have : i32 bjd.bytesToGrab.toNat > parseLen ∨ i32 bjd.bytesToGrab.toNat ≤ 0 := by
      unfold parseLen
      omega
    simp [stringExtract, this]
  | false =>
    simp only [hflag, Bool.false_eq_true, if_false] at hint
    have : ¬(1 ≤ i32 bjd.bytesToGrab.toNat ∧ i32 bjd.bytesToGrab.toNat ≤ 4) := by omega
    simp only [byteExtract, this, if_false, ite_self]
    simp

theorem fieldAt_of_size {bjd : ByteJumpData} {data : Buffer} {base : ℤ}
    (h : bjd.bytesToGrab.toNat = 0 ∨ (if bjd.dataStringConvertFlag then 10 else 4) < bjd.bytesToGrab.toNat) :
    fieldAt bjd bjd.endianess data base = none := by
  unfold fieldAt
  cases hflag : bjd.dataStringConvertFlag <;> simp only [hflag] at h <;> grind

/-- The code extracts the number of the field, cut to 32 bits. -/
theorem extract_eq (bjd : ByteJumpData) (data : Buffer) (base : ℤ) :
    extract bjd data base = (fieldAt bjd bjd.endianess data base).map fun r =>
      (UInt32.ofNat (min r.1 (2 ^ 32 - 1)), r.2) := by
  by_cases hsize : bjd.bytesToGrab.toNat = 0 ∨
      (if bjd.dataStringConvertFlag then 10 else 4) < bjd.bytesToGrab.toNat
  · rw [extract_of_size hsize, fieldAt_of_size hsize]
    rfl
  · have h₁ : 1 ≤ bjd.bytesToGrab.toNat := by omega
    have hint : i32 bjd.bytesToGrab.toNat = (bjd.bytesToGrab.toNat : ℤ) := by
      apply i32_of_range <;> split at hsize <;> omega
    rw [extract, hint, fieldAt]
    cases hflag : bjd.dataStringConvertFlag with
    | true =>
      have h₁₀ : bjd.bytesToGrab.toNat ≤ 10 := by
        simp only [hflag, if_true] at hsize
        omega
      simp only [stringExtract_eq data base h₁ h₁₀, h₁, h₁₀, and_true, if_true, not_true_eq_false, if_false]
      split_ifs
      · rw [Option.map_map]
        rfl
      · rfl
    | false =>
      have h₄ : bjd.bytesToGrab.toNat ≤ 4 := by
        simp only [hflag, Bool.false_eq_true, if_false] at hsize
        omega
      simp only [byteExtract_eq data base h₁ h₄, h₁, h₄, and_true, if_true, Bool.false_eq_true, if_false,
        not_false_eq_true]
      split_ifs with hin
      · have hlen := length_bytesAt hin.1 hin.2
        cases hv : bytesNumber bjd.endianess (bytesAt data base bjd.bytesToGrab.toNat) with
        | none => rfl
        | some v =>
          have hlt := bytesNumber_lt (by omega) hv
          simp only [Option.map_some, Nat.min_eq_left (by omega : v ≤ 2 ^ 32 - 1)]
      · rfl

/-! ### The jump -/

theorem jumpValue_toNat (bjd : ByteJumpData) (v : UInt32) :
    (jumpValue bjd v).toNat = exactJump bjd v.toNat % 2 ^ 32 := by
  have hlt := v.toNat_lt
  have hproduct : (if bjd.multiplier ≠ 0 then v * bjd.multiplier else v).toNat =
      v.toNat * (if bjd.multiplier = 0 then 1 else bjd.multiplier.toNat) % 2 ^ 32 := by
    by_cases hm : bjd.multiplier = 0
    · simp [hm, Nat.mod_eq_of_lt hlt]
    · simp [hm, UInt32.toNat_mul]
  rw [jumpValue, exactJump, roundUp]
  generalize (if bjd.multiplier ≠ 0 then v * bjd.multiplier else v) = x at hproduct ⊢
  generalize v.toNat * (if bjd.multiplier = 0 then 1 else bjd.multiplier.toNat) = y at hproduct ⊢
  have hmod : (x % 4).toNat = x.toNat % 4 := by simp [UInt32.toNat_mod]
  have hzero : x % 4 ≠ 0 ↔ x.toNat % 4 ≠ 0 := by rw [← hmod, ne_eq, ne_eq, ← UInt32.toNat_inj]; rfl
  cases bjd.alignFlag with
  | false => simp [hproduct]
  | true =>
    by_cases h : x % 4 = 0
    · have := hzero.not.1 (by simp [h])
      simp only [h, ne_eq, not_true_eq_false, and_false, if_false, if_true]
      omega
    · have h4 := hzero.1 h
      have hsub : (4 - x % 4).toNat = 4 - x.toNat % 4 := by
        rw [UInt32.toNat_sub_of_le, hmod]
        · rfl
        · rw [UInt32.le_iff_toNat_le, hmod]
          show x.toNat % 4 ≤ 4
          omega
      simp only [h, ne_eq, not_false_eq_true, and_self, if_true, UInt32.toNat_add, hsub]
      omega

/-- The position that the code sets the cursor to. -/
def codeTarget (bjd : ByteJumpData) (data : Buffer) (base : ℤ) (v n : ℕ) : ℤ :=
  origin bjd data base n + (exactJump bjd (min v (2 ^ 32 - 1)) % 2 ^ 32 : ℕ)

theorem jumpFrom_doePtr (bjd : ByteJumpData) (data : Buffer) (doe : Doe) (base : ℤ) (reset : Bool) (v n : ℕ) :
    (jumpFrom bjd data doe base reset (.ofNat (min v (2 ^ 32 - 1))) n).doePtr.map (· + bjd.postOffset.toInt) =
      some (codeTarget bjd data base v n) := by
  have hv : (UInt32.ofNat (min v (2 ^ 32 - 1))).toNat = min v (2 ^ 32 - 1) :=
    UInt32.toNat_ofNat_of_lt' (by show _ < 2 ^ 32; omega)
  have hjump := jumpValue_toNat bjd (.ofNat (min v (2 ^ 32 - 1)))
  rw [hv] at hjump
  unfold jumpFrom codeTarget origin
  cases bjd.fromBeginningFlag
  · simp only [Bool.false_eq_true, if_false, hjump, Option.map_some]
    congr 1
    omega
  · simp only [if_true, setDoePtr, hjump, Option.map_some]
    congr 1
    omega

theorem checkTarget_spec {data : Buffer} {bjd : ByteJumpData} {doe : Doe} {t : ℤ}
    (ht : doe.doePtr.map (· + bjd.postOffset.toInt) = some t) :
    ((checkTarget data bjd doe).1 = .isMatch ↔ data.Inside t) ∧
      (checkTarget data bjd doe).2.2.doePtr = some t := by
  simp [checkTarget, Doe.updateDoePtr, ht, inBounds, Buffer.Inside]

/-- The option matches where there is a field and the position of the code lies in the buffer. -/
theorem findAndJump_spec (pdata : ℤ) (data : Buffer) (bjd : ByteJumpData) (doe : Doe) :
    (∀ base v n, field pdata data bjd doe = some (base, v, n) →
      ((findAndJump pdata data bjd doe).1 = .isMatch ↔ data.Inside (codeTarget bjd data base v n)) ∧
      (findAndJump pdata data bjd doe).2.2.doePtr = some (codeTarget bjd data base v n)) ∧
    (field pdata data bjd doe = none → (findAndJump pdata data bjd doe).1 = .noMatch) := by
  unfold findAndJump field
  cases fieldBase bjd data doe with
  | none => simp
  | some r =>
    obtain ⟨base, reset⟩ := r
    cases horder : byteOrder bjd pdata base with
    | none => simp [horder]
    | some endianess =>
      have hextract := extract_eq { bjd with endianess := endianess } data base
      change _ = (fieldAt bjd endianess data base).map _ at hextract
      simp only [horder, Option.bind_eq_bind, Option.bind_some, extractAndJump, hextract]
      cases fieldAt bjd endianess data base with
      | none => simp
      | some r =>
        obtain ⟨v, n⟩ := r
        have hptr := jumpFrom_doePtr { bjd with endianess := endianess } data doe base reset v n
        change _ = some (codeTarget bjd data base v n) at hptr
        refine ⟨fun base' v' n' h => ?_, fun h => by simp at h⟩
        obtain ⟨rfl, rfl, rfl⟩ : base = base' ∧ v = v' ∧ n = n' := by simpa using h
        exact checkTarget_spec hptr

theorem le_roundUp (bjd : ByteJumpData) (n : ℕ) : n ≤ roundUp bjd n := by
  unfold roundUp
  split <;> omega

theorem roundUp_mono (bjd : ByteJumpData) {m n : ℕ} (h : m ≤ n) : roundUp bjd m ≤ roundUp bjd n := by
  unfold roundUp
  split <;> omega

theorem exactJump_mono (bjd : ByteJumpData) {v w : ℕ} (h : v ≤ w) : exactJump bjd v ≤ exactJump bjd w :=
  roundUp_mono bjd (Nat.mul_le_mul_right _ h)

theorem le_exactJump (bjd : ByteJumpData) (v : ℕ) : v ≤ exactJump bjd v := by
  have hfactor : 1 ≤ if bjd.multiplier = 0 then 1 else bjd.multiplier.toNat := by
    split
    · exact le_rfl
    · rename_i h
      have : bjd.multiplier.toNat ≠ 0 := fun h0 => h (UInt32.toNat_inj.1 h0)
      omega
  exact (Nat.le_mul_of_pos_right v hfactor).trans (le_roundUp bjd _)

/-- The position that a jump is counted from is not far in front of the buffer. -/
theorem le_origin {bjd : ByteJumpData} {endianess : Int8} {data : Buffer} {base : ℤ} {v n : ℕ}
    (h : fieldAt bjd endianess data base = some (v, n)) : data.start - 2 ^ 31 ≤ origin bjd data base n := by
  have hbase : data.start ≤ base := by
    by_contra hlt
    simp [fieldAt, hlt] at h
  have hpost := bjd.postOffset.le_toInt
  unfold origin
  split <;> omega

/-- A jump of nearly 2 ^ 32 bytes leads behind every buffer. -/
theorem not_inside_of_far {bjd : ByteJumpData} {endianess : Int8} {data : Buffer} {base : ℤ} {v n : ℕ}
    (hsized : data.Sized) (h : fieldAt bjd endianess data base = some (v, n)) {j : ℕ} (hj : 2 ^ 32 - 1 ≤ j) :
    ¬data.Inside (origin bjd data base n + j) := by
  have := le_origin h
  unfold Buffer.Sized at hsized
  unfold Buffer.Inside Buffer.stop
  omega

theorem fieldAt_of_field {pdata : ℤ} {data : Buffer} {bjd : ByteJumpData} {doe : Doe} {base : ℤ} {v n : ℕ}
    (h : field pdata data bjd doe = some (base, v, n)) :
    ∃ endianess, fieldAt bjd endianess data base = some (v, n) := by
  simp only [field, Option.bind_eq_bind, Option.bind_eq_some_iff] at h
  obtain ⟨⟨base', reset⟩, -, endianess, -, ⟨v', n'⟩, hat, h⟩ := h
  obtain ⟨rfl, rfl, rfl⟩ : base' = base ∧ v' = v ∧ n' = n := by simpa using h
  exact ⟨endianess, hat⟩

/-- The position of the code is the exact one, or both lie outside of the buffer, unless the jump wraps
back. -/
theorem inside_codeTarget {bjd : ByteJumpData} {endianess : Int8} {data : Buffer} {base : ℤ} {v n : ℕ}
    (hsized : data.Sized) (hat : fieldAt bjd endianess data base = some (v, n)) :
    (2 ^ 32 ≤ exactJump bjd (min v (2 ^ 32 - 1)) → ¬data.Inside (exactTarget bjd data base v n)) ∧
    (exactJump bjd (min v (2 ^ 32 - 1)) < 2 ^ 32 →
      codeTarget bjd data base v n = exactTarget bjd data base v n ∨
      ¬data.Inside (codeTarget bjd data base v n) ∧ ¬data.Inside (exactTarget bjd data base v n)) := by
  have hmono := exactJump_mono bjd (min_le_left v (2 ^ 32 - 1))
  have hle := le_exactJump bjd (min v (2 ^ 32 - 1))
  constructor
  · intro hwrap
    exact not_inside_of_far hsized hat (by omega)
  · intro hfit
    rcases Nat.lt_or_ge v (2 ^ 32) with hv | hv
    · left
      rw [Nat.min_eq_left (by omega)] at hfit
      rw [codeTarget, exactTarget, Nat.min_eq_left (by omega), Nat.mod_eq_of_lt hfit]
    · right
      rw [Nat.min_eq_right (by omega)] at hfit hle hmono
      refine ⟨not_inside_of_far hsized hat ?_, not_inside_of_far hsized hat (by omega)⟩
      rw [Nat.min_eq_right (by omega), Nat.mod_eq_of_lt hfit]
      exact hle

theorem exists_field_iff {base : ℤ} {v n : ℕ} {P : ℤ → ℕ → ℕ → Prop} :
    (∃ base' v' n', some (base, v, n) = some (base', v', n') ∧ P base' v' n') ↔ P base v n := by
  constructor
  · rintro ⟨_, _, _, h, hP⟩
    cases h
    exact hP
  · exact fun hP => ⟨base, v, n, rfl, hP⟩

/-- **`byte_jump`** lands where the rule says, for every buffer, cursor and configuration, if and only if the
product does not wrap back into the buffer. -/
theorem byteJump_lands_iff (extracted : Int8 → UInt32) (pdata : ℤ) (data : Buffer) (bjd : ByteJumpData)
    (doe : Doe) (hsized : data.Sized) :
    LandsExactly extracted pdata data bjd doe ↔ ¬WrapsBack extracted pdata data bjd doe := by
  unfold LandsExactly WrapsBack byteJump
  simp only
  generalize withOffset extracted bjd = bjd
  obtain ⟨hsome, hnone⟩ := findAndJump_spec pdata data bjd doe
  cases hfield : field pdata data bjd doe with
  | none => simp [hnone hfield]
  | some r =>
    obtain ⟨base, v, n⟩ := r
    obtain ⟨endianess, hat⟩ := fieldAt_of_field hfield
    obtain ⟨hmatch, hptr⟩ := hsome base v n hfield
    obtain ⟨hout, hfit⟩ := inside_codeTarget hsized hat
    simp only [exists_field_iff, hmatch, hptr]
    constructor
    · rintro ⟨hiff, -⟩ ⟨hwrap, hin⟩
      exact hout hwrap (hiff.1 hin)
    · intro hback
      have hcases : codeTarget bjd data base v n = exactTarget bjd data base v n ∨
          ¬data.Inside (codeTarget bjd data base v n) ∧ ¬data.Inside (exactTarget bjd data base v n) := by
        rcases Nat.lt_or_ge (exactJump bjd (min v (2 ^ 32 - 1))) (2 ^ 32) with h | h
        · exact hfit h
        · exact Or.inr ⟨fun hin => hback ⟨h, hin⟩, hout h⟩
      rcases hcases with heq | ⟨hcode, hexact⟩
      · rw [heq]
        refine ⟨Iff.rfl, fun _ base' v' n' h => ?_⟩
        cases h
        rfl
      · exact ⟨iff_of_false hcode hexact, fun hin => absurd hin hcode⟩

/-- `byte_jump:4,0,multiplier 4`. -/
def multiplierFour : ByteJumpData where
  bytesToGrab := 4
  offset := 0
  relativeFlag := false
  dataStringConvertFlag := false
  fromBeginningFlag := false
  alignFlag := false
  endianess := BIG
  base := 0
  multiplier := 4
  postOffset := 0
  offsetVar := -1
  byteOrderFunc := none

/-- A payload of 12 bytes that starts with the field `40 00 00 01`. -/
def wrappingPayload : Buffer := ⟨0, [0x40, 0, 0, 1, 0, 0, 0, 0, 0, 0, 0, 0]⟩

theorem byteJump_lands_iff_multiplierFour :
    LandsExactly (fun _ => 0) 0 wrappingPayload multiplierFour ⟨none, DOE_BUF_STD⟩ ↔
      ¬WrapsBack (fun _ => 0) 0 wrappingPayload multiplierFour ⟨none, DOE_BUF_STD⟩ :=
  byteJump_lands_iff _ _ _ _ _ (by unfold Buffer.Sized; decide)

/-- The product 0x40000001 * 4 is taken for 4. -/
theorem byteJump_wraps_back :
    ¬∀ (extracted : Int8 → UInt32) (pdata : ℤ) (data : Buffer) (bjd : ByteJumpData) (doe : Doe),
      data.Sized → LandsExactly extracted pdata data bjd doe := by
  intro h
  have hsized : wrappingPayload.Sized := by unfold Buffer.Sized; decide
  obtain ⟨hmatch, -⟩ := h (fun _ => 0) 0 wrappingPayload multiplierFour ⟨none, DOE_BUF_STD⟩ hsized
  obtain ⟨base, v, n, hfield, -, hstop⟩ := hmatch.1 (by decide)
  have hfour : field 0 wrappingPayload (withOffset (fun _ => 0) multiplierFour) ⟨none, DOE_BUF_STD⟩ =
      some (0, 0x40000001, 4) := by decide
  rw [hfour] at hfield
  cases hfield
  exact absurd hstop (by decide)

end Snort.ByteJump
