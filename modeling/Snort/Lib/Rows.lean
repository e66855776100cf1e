import Mathlib.Data.List.GetD
import Mathlib.Tactic

/-!
# Rows of words in one array

Rows `f 0, f 1, …` laid end to end, and words with two fields.

* `start f k` is the index of the first word of row `k`; `getD_flatMap` reads a row in place.
* `hi <<< n ||| lo` with `lo < 2 ^ n` has the field `hi` above `n` low bits: masks and shifts read
  the fields back.
-/

namespace Rows

section Layout

variable {α : Type*} {f : ℕ → List α}

/-- Where row `k` starts. -/
def start (f : ℕ → List α) (k : ℕ) : ℕ := ((List.range k).flatMap f).length

@[simp] theorem start_zero : start f 0 = 0 := rfl

theorem start_succ (k : ℕ) : start f (k + 1) = start f k + (f k).length := by
  rw [start, List.range_succ, List.flatMap_append, List.length_append, List.flatMap_singleton]
  rfl

theorem start_mono : Monotone (start f) := by
  refine monotone_nat_of_le_succ fun k => ?_
  rw [start_succ]
  exact Nat.le_add_right _ _

theorem start_add_lt {j k : ℕ} (h : j < k) {i : ℕ} (hi : i < (f j).length) :
    start f j + i < start f k := by
  have := start_mono (f := f) h
  rw [start_succ] at this
  omega

/-- Rows of equal lengths start at equal indices. -/
theorem start_congr {β : Type*} {g : ℕ → List β} {n : ℕ}
    (h : ∀ k < n, (f k).length = (g k).length) : ∀ k ≤ n, start f k = start g k := by
  intro k
  induction k with
  | zero => exact fun _ => rfl
  | succ k ih =>
    intro hk
    rw [start_succ, start_succ, ih (Nat.le_of_succ_le hk), h k hk]

/-- Word `j` of row `k`, read in the array of the first `n` rows. -/
theorem getD_flatMap {n k j : ℕ} (hk : k < n) (hj : j < (f k).length) (d : α) :
    ((List.range n).flatMap f).getD (start f k + j) d = (f k).getD j d := by
  induction n with
  | zero => exact absurd hk (Nat.not_lt_zero k)
  | succ n ih =>
    rw [List.range_succ, List.flatMap_append, List.flatMap_singleton]
    rcases Nat.lt_succ_iff_lt_or_eq.1 hk with hlt | rfl
    · rw [List.getD_append _ _ _ _ (start_add_lt hlt hj)]
      exact ih hlt
    · rw [start, List.getD_append_right _ _ _ _ (Nat.le_add_right _ _), Nat.add_sub_cancel_left]

end Layout

section Fields

variable {n hi lo : ℕ}

theorem field_shiftRight (h : lo < 2 ^ n) : (hi <<< n ||| lo) >>> n = hi := by
  rw [← Nat.shiftLeft_add_eq_or_of_lt h, Nat.shiftLeft_eq, Nat.shiftRight_eq_div_pow,
    Nat.mul_comm, Nat.mul_add_div (Nat.two_pow_pos n), Nat.div_eq_of_lt h, Nat.add_zero]

theorem field_mod (h : lo < 2 ^ n) : (hi <<< n ||| lo) % 2 ^ n = lo := by
  rw [← Nat.shiftLeft_add_eq_or_of_lt h, Nat.shiftLeft_eq, Nat.mul_add_mod_self_right,
    Nat.mod_eq_of_lt h]

/-- A mask above the low bits. -/
theorem field_and (h : lo < 2 ^ n) (m : ℕ) : (hi <<< n ||| lo) &&& (m <<< n) = (hi &&& m) <<< n := by
  have hlo : lo &&& (m <<< n) = 0 := by
    refine Nat.eq_of_testBit_eq fun i => ?_
    rw [Nat.testBit_and, Nat.testBit_shiftLeft, Nat.zero_testBit]
    rcases Nat.lt_or_ge i n with hi | hi
    · simp [Nat.not_le.2 hi]
    · rw [Nat.testBit_lt_two_pow (h.trans_le (Nat.pow_le_pow_right Nat.two_pos hi)), Bool.false_and]
  rw [Nat.and_or_distrib_right, hlo, Nat.or_zero, Nat.shiftLeft_and_distrib]

end Fields

end Rows
