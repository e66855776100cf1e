import Snort.Lib.Numeral

/-!
# Numbers in texts: `strtoul`

* `numeral`: the number at the front of a text, of any size, and how many characters it takes;
* `strtoul`: the library function on an `unsigned long` of 64 bits; `snortStrToU32` on top of it.

White space and a minus sign in front, which `SnortStrToU32` skips and refuses, are not for `numeral`.
-/

namespace Snort.Util

open Numeral

/-- `isspace`. -/
def isspace (c : BitVec 8) : Bool := c.toNat = 32 ∨ 9 ≤ c.toNat ∧ c.toNat ≤ 13

/-- The value of a digit or a letter. -/
def digitValue (c : BitVec 8) : ℕ :=
  if 48 ≤ c.toNat ∧ c.toNat < 58 then c.toNat - 48
  else if 65 ≤ c.toNat ∧ c.toNat < 91 then c.toNat - 55
  else if 97 ≤ c.toNat ∧ c.toNat < 123 then c.toNat - 87
  else 36

/-- A `0x` with a digit behind it. -/
def hasHexPrefix (s : List (BitVec 8)) : Bool :=
  s.head? = some 48 ∧ (s[1]? = some 120 ∨ s[1]? = some 88) ∧ (s[2]?.any fun c => digitValue c < 16)

/-- The base that a text is read in; 0 leaves it to the text. -/
def numeralBase (s : List (BitVec 8)) (base : ℕ) : ℕ :=
  if base ≠ 0 then base
  else if hasHexPrefix s then 16
  else if s.head? = some 48 then 8
  else 10

/-- The number at the front of a text, and how many characters it takes; `none` where there is nothing to
convert, or the base is none. -/
def numeral (s : List (BitVec 8)) (base : ℕ) : Option (ℕ × ℕ) :=
  let sign := if s.head? = some 43 then 1 else 0
  let s := s.drop sign
  let b := numeralBase s base
  let lead := if b = 16 ∧ hasHexPrefix s then 2 else 0
  let digits := (s.drop lead).takeWhile fun c => digitValue c < b
  if b < 2 ∨ 36 < b ∨ digits = [] then none
  else some (value b (digits.map digitValue), sign + lead + digits.length)

/-- `strtoul`: a number that does not fit is `ULONG_MAX`. -/
def strtoul (s : List (BitVec 8)) (base : ℕ) : Option (ℕ × ℕ) :=
  (numeral s base).map fun r => (min r.1 (2 ^ 64 - 1), r.2)

/-- `SnortStrToU32` on a text that ends with a zero byte: the value and where the text is left. -/
def snortStrToU32 (buffer : List (BitVec 8)) (base : ℕ) : Option (ℕ × ℕ) :=
  let s := buffer.dropWhile isspace
  if s.head? = some 0 ∨ s.head? = some 45 then none
  else do
    let (tmp, n) ← strtoul s base
    return (min tmp (2 ^ 32 - 1), (buffer.takeWhile isspace).length + n)

end Snort.Util
