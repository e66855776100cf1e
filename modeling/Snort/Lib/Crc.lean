import Mathlib.Tactic

/-!
# Reflected cyclic redundancy checks

The register is divided by a polynomial, a bit of the message at a time, lowest bit first.

* `bitStep`, `steps`: a bit, and `n` bits; `steps_xor`: they are linear;
* **`steps_eq`**: `n` bits of the register move out, and only those bits select what is subtracted;
* `table_step`: so a table over the low bits does a whole byte at once.
-/

namespace Crc

variable {w : ℕ} (poly : BitVec w)

/-- A bit moves out of the register; the polynomial is subtracted if it was set. -/
def bitStep (c : BitVec w) : BitVec w := if c.getLsbD 0 then (c >>> 1) ^^^ poly else c >>> 1

/-- `n` bits move out. -/
def steps : ℕ → BitVec w → BitVec w
  | 0, c => c
  | n + 1, c => steps n (bitStep poly c)

/-- The register behind a message of symbols of `n` bits. -/
def register (n : ℕ) (c : BitVec w) (data : List (BitVec w)) : BitVec w :=
  data.foldl (fun c b => steps poly n (c ^^^ b)) c

/-- The low `n` bits. -/
def mask (w n : ℕ) : BitVec w := (BitVec.allOnes n).setWidth w

@[simp] theorem steps_zero (c : BitVec w) : steps poly 0 c = c := rfl

@[simp] theorem getLsbD_mask (n i : ℕ) : (mask w n).getLsbD i = decide (i < w ∧ i < n) := by
  simp [mask]

theorem xor_xor_cancel (a b c : BitVec w) : (a ^^^ c) ^^^ (b ^^^ c) = a ^^^ b := by
  calc (a ^^^ c) ^^^ (b ^^^ c) = (a ^^^ b) ^^^ (c ^^^ c) := by ac_rfl
    _ = a ^^^ b := by simp

theorem bitStep_xor (a b : BitVec w) : bitStep poly (a ^^^ b) = bitStep poly a ^^^ bitStep poly b := by
  unfold bitStep
  rw [BitVec.getLsbD_xor, BitVec.ushiftRight_xor_distrib]
  cases a.getLsbD 0 <;> cases b.getLsbD 0
  · simp
  · simp [BitVec.xor_assoc]
  · simp only [Bool.xor_false, if_true, Bool.false_eq_true, if_false]
    ac_rfl
  · simp [xor_xor_cancel]

theorem steps_xor (n : ℕ) (a b : BitVec w) : steps poly n (a ^^^ b) = steps poly n a ^^^ steps poly n b := by
  induction n generalizing a b with
  | zero => rfl
  | succ n ih => simp only [steps, bitStep_xor, ih]

/-- Bits that are clear move out and leave nothing. -/
theorem steps_of_clear {n : ℕ} {c : BitVec w} (hc : ∀ i < n, c.getLsbD i = false) : steps poly n c = c >>> n := by
  induction n generalizing c with
  | zero => simp
  | succ n ih =>
    have hbit : bitStep poly c = c >>> 1 := by simp [bitStep, hc 0 (by omega)]
    rw [steps, hbit, ih, ← BitVec.shiftRight_add, Nat.add_comm]
    intro i hi
    rw [BitVec.getLsbD_ushiftRight]
    exact hc (1 + i) (by omega)

/-- A register is what is above its low bits and its low bits. -/
theorem eq_high_xor_low (n : ℕ) (c : BitVec w) : c = (c &&& ~~~mask w n) ^^^ (c &&& mask w n) := by
  apply BitVec.eq_of_getLsbD_eq
  intro i hi
  simp only [BitVec.getLsbD_xor, BitVec.getLsbD_and, BitVec.getLsbD_not, getLsbD_mask]
  by_cases hn : i < n <;> simp [hi, hn]

theorem high_shift (n : ℕ) (c : BitVec w) : (c &&& ~~~mask w n) >>> n = c >>> n := by
  apply BitVec.eq_of_getLsbD_eq
  intro i _
  simp only [BitVec.getLsbD_ushiftRight, BitVec.getLsbD_and, BitVec.getLsbD_not, getLsbD_mask]
  by_cases hi : n + i < w
  · simp [hi]
  · simp [BitVec.getLsbD_of_ge c (n + i) (by omega)]

/-- **A symbol at once**: the high bits move down, and what is subtracted depends on the low bits. -/
theorem steps_eq (n : ℕ) (c : BitVec w) : steps poly n c = (c >>> n) ^^^ steps poly n (c &&& mask w n) := by
  conv_lhs => rw [eq_high_xor_low n c, steps_xor]
  rw [steps_of_clear poly, high_shift]
  intro i hi
  simp [hi]

/-- A symbol has no bit above its low ones. -/
theorem xor_shift {n : ℕ} {c b : BitVec w} (hb : b >>> n = 0#w) : (c ^^^ b) >>> n = c >>> n := by
  simp [BitVec.ushiftRight_xor_distrib, hb]

/-- A symbol goes through the register by the table. -/
theorem table_step {n : ℕ} (table : BitVec w → BitVec w)
    (htable : ∀ c, table (c &&& mask w n) = steps poly n (c &&& mask w n)) (c : BitVec w) {b : BitVec w}
    (hb : b >>> n = 0#w) : (c >>> n) ^^^ table ((c ^^^ b) &&& mask w n) = steps poly n (c ^^^ b) := by
  rw [steps_eq, xor_shift hb, htable]

end Crc
