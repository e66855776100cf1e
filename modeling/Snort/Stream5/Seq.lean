import Mathlib.Tactic

/-!
# TCP sequence numbers

The `SEQ_` macros compare sequence numbers by the sign of their difference.

* **`seq_diff`**: in a window smaller than `2 ^ 31` they compare offsets from the start of the window.
* `off`: how far a sequence number is ahead of another.
-/

namespace Snort.Stream5

/-- A sequence number. -/
abbrev Seq := BitVec 32

/-- `SEQ_LT`. -/
def seqLt (a b : Seq) : Bool := (a - b).toInt < 0

/-- `SEQ_LEQ`. -/
def seqLeq (a b : Seq) : Bool := (a - b).toInt ≤ 0

/-- `SEQ_GT`. -/
def seqGt (a b : Seq) : Bool := 0 < (a - b).toInt

/-- `SEQ_GEQ`. -/
def seqGeq (a b : Seq) : Bool := 0 ≤ (a - b).toInt

/-- `SEQ_EQ`. -/
def seqEq (a b : Seq) : Bool := (a - b).toInt = 0

/-- The difference of two sequence numbers of a window. -/
theorem seq_diff (q : Seq) {a b : ℕ} (ha : a < 2 ^ 31) (hb : b < 2 ^ 31) :
    (q + BitVec.ofNat 32 a - (q + BitVec.ofNat 32 b)).toInt = (a : ℤ) - b := by
  have hsub : q + BitVec.ofNat 32 a - (q + BitVec.ofNat 32 b) =
      BitVec.ofNat 32 a - BitVec.ofNat 32 b := by
    bv_omega
  rw [hsub, BitVec.toInt_eq_toNat_cond, BitVec.toNat_sub, BitVec.toNat_ofNat, BitVec.toNat_ofNat]
  split_ifs <;> omega

section

variable (q : Seq) {a b : ℕ} (ha : a < 2 ^ 31) (hb : b < 2 ^ 31)

include ha hb

theorem seqLeq_iff : seqLeq (q + BitVec.ofNat 32 a) (q + BitVec.ofNat 32 b) = true ↔ a ≤ b := by
  rw [seqLeq, seq_diff q ha hb, decide_eq_true_eq]
  omega

end

/-! ### Offsets -/

/-- How far `x` is ahead of `q`. -/
def off (q x : Seq) : ℕ := (x - q).toNat

theorem off_lt (q x : Seq) : off q x < 2 ^ 32 := (x - q).isLt

/-- A sequence number some bytes ahead. -/
theorem off_add {q x : Seq} {n : BitVec 32} (h : off q x + n.toNat < 2 ^ 32) :
    off q (x + n) = off q x + n.toNat := by
  have hassoc : x + n - q = x - q + n := by bv_omega
  rw [off, hassoc, BitVec.toNat_add_of_lt h, off]

/-- A sequence number that is at most half the space ahead. -/
theorem seqLt_iff_off {x y : Seq} : seqLt x y = true ↔ 0 < off x y ∧ off x y ≤ 2 ^ 31 := by
  have hsub : (x - y).toNat = (2 ^ 32 - off x y) % 2 ^ 32 := by
    unfold off
    bv_omega
  have hlt := off_lt x y
  rw [seqLt, decide_eq_true_eq, BitVec.toInt_eq_toNat_cond, hsub]
  split_ifs <;> omega

/-- What ends some bytes behind `x` ends behind `y`, if `y` is not far ahead. -/
theorem seqGt_add_iff {x y : Seq} {n : BitVec 32} (hn : n.toNat < 2 ^ 16) (hlt : seqLt x y = true) :
    seqGt (x + n) y = true ↔ off x y < n.toNat := by
  obtain ⟨hpos, hle⟩ := seqLt_iff_off.1 hlt
  have hsub : (x + n - y).toNat = (n.toNat + (2 ^ 32 - off x y)) % 2 ^ 32 := by
    unfold off
    bv_omega
  rw [seqGt, decide_eq_true_eq, BitVec.toInt_eq_toNat_cond, hsub]
  split_ifs <;> omega

theorem seqLt_self (x : Seq) : seqLt x x = false := by
  rw [seqLt, BitVec.sub_self]
  rfl

theorem seqEq_iff {x y : Seq} : seqEq x y = true ↔ x = y := by
  rw [seqEq, decide_eq_true_eq, ← BitVec.toInt_zero, BitVec.toInt_inj]
  constructor
  · intro h
    bv_omega
  · rintro rfl
    exact BitVec.sub_self x

end Snort.Stream5
