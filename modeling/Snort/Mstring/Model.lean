import Mathlib.Data.BitVec
import Snort.Lib.BoyerMoore

/-!
# The Boyer-Moore search: `mstring.c`

`make_skip`, `make_shift` and the two searches.  Reads are checked: what is outside the pattern or the
buffer gives `none`.  The pointers `p1`, `p2` and `p3` of `make_shift`, which may end in front of the
pattern, are counted from one character before it.
-/

namespace Snort.Mstring

abbrev Byte := BitVec 8

/-- `toupper`, in the C locale. -/
def toupper (b : Byte) : Byte := if 97 ≤ b.toNat ∧ b.toNat ≤ 122 then b - 32 else b

/-! ### `make_skip` -/

/-- `skip[*ptrn++] = plen--`. -/
def makeSkipLoop : List Byte → ℕ → (Byte → ℕ) → Byte → ℕ
  | [], _, skip => skip
  | b :: ptrn, plen, skip => makeSkipLoop ptrn (plen - 1) (Function.update skip b plen)

def makeSkip (ptrn : List Byte) : Byte → ℕ :=
  makeSkipLoop ptrn ptrn.length fun _ => ptrn.length + 1

/-! ### `make_shift` -/

section Shift

variable (ptrn : List Byte)

/-- `while(p1 >= ptrn && *p1-- != c)`. -/
def skipTo (c : Byte) : ℕ → Option ℕ
  | 0 => some 0
  | p1 + 1 => do
    let b ← ptrn[p1]?
    if b ≠ c then skipTo c p1 else some p1

/-- `while(p3 >= ptrn && *p3-- == *p2-- && p2 >= pptr)`: `p3` and `p2`. -/
def compare (pptr : ℕ) : ℕ → ℕ → Option (ℕ × ℕ)
  | 0, p2 => some (0, p2)
  | _ + 1, 0 => none
  | p3 + 1, p2 + 1 => do
    let b3 ← ptrn[p3]?
    let b2 ← ptrn[p2]?
    if b3 = b2 ∧ pptr + 1 ≤ p2 then compare pptr p3 p2 else some (p3, p2)

/-- The `do` loop: `p3` and `p2`. -/
def findShift (c : Byte) (pptr : ℕ) : ℕ → ℕ → Option (ℕ × ℕ)
  | 0, _ => none
  | fuel + 1, p1 => do
    let p1 ← skipTo ptrn c p1
    let (p3, p2) ← compare ptrn pptr p1 (ptrn.length - 1)
    if 0 < p3 ∧ pptr + 1 ≤ p2 then findShift c pptr fuel p1 else some (p3, p2)

/-- The outer loop: `sptr` goes back to the start of the table. -/
def makeShiftLoop (c : Byte) : ℕ → ℕ → (ℕ → ℕ) → Option (ℕ → ℕ)
  | 0, _, shift => some shift
  | sptr + 1, pptr, shift => do
    let (p3, p2) ← findShift ptrn c pptr ptrn.length (ptrn.length - 1)
    makeShiftLoop c sptr (pptr - 1) (Function.update shift sptr (ptrn.length - sptr + p2 - p3))

/-- `make_shift`, of a pattern that is not empty. -/
def makeShift : Option (ℕ → ℕ) := do
  let c ← ptrn[ptrn.length - 1]?
  makeShiftLoop ptrn c (ptrn.length - 1) (ptrn.length - 1)
    (Function.update (fun _ => 0) (ptrn.length - 1) 1)

end Shift

/-! ### The searches -/

/-- How the comparison from the end of the pattern ends: at the start of the pattern, or where the
characters differ. -/
inductive Compared
  | found (bIdx : ℕ)
  | differ (bIdx pIdx : ℕ) (c : Byte)

section Search

variable (fold : Byte → Byte) (buf ptrn : List Byte)

/-- `while(buf[--b_idx] == ptrn[--p_idx])`. -/
def compareBack : ℕ → ℕ → Option Compared
  | bIdx + 1, pIdx + 1 => do
    let b ← buf[bIdx]?
    let c ← ptrn[pIdx]?
    if fold b = c then
      if pIdx = 0 then some (.found bIdx) else compareBack bIdx pIdx
    else some (.differ bIdx pIdx (fold b))
  | _, _ => none

/-- `while(b_idx <= blen)`; if the pattern is found, where `doe_ptr` is set. -/
def searchLoop (skip : Byte → ℕ) (shift : ℕ → ℕ) : ℕ → ℕ → Option (Option ℕ)
  | 0, _ => none
  | fuel + 1, bIdx =>
    if bIdx ≤ buf.length then do
      match ← compareBack fold buf ptrn bIdx ptrn.length with
      | .found bIdx => return some (bIdx + ptrn.length)
      | .differ bIdx pIdx c =>
        searchLoop skip shift fuel
          (bIdx + if shift pIdx < skip c then skip c else shift pIdx)
    else some none

/-- What the two searches share; an empty pattern is found without a place. -/
def searchWith (skip : Byte → ℕ) (shift : ℕ → ℕ) : Option (Bool × Option ℕ) :=
  if ptrn.length = 0 then some (true, none)
  else (searchLoop fold buf ptrn skip shift (buf.length + 1) ptrn.length).map fun doe => (doe.isSome, doe)

/-- `mSearch`: the answer, and where it sets `doe_ptr`. -/
def mSearch (skip : Byte → ℕ) (shift : ℕ → ℕ) : Option (Bool × Option ℕ) :=
  searchWith id buf ptrn skip shift

/-- `mSearchCI`. -/
def mSearchCI (skip : Byte → ℕ) (shift : ℕ → ℕ) : Option (Bool × Option ℕ) :=
  searchWith toupper buf ptrn skip shift

end Search

end Snort.Mstring
