import Mathlib.Tactic

/-!
# C integer conversions

Expressions of the C code are computed in `ℤ`, the type `int` they are promoted to; a value is
reduced where it is stored.  `u16`, `u32` store into an unsigned variable (a natural number),
`i16`, `i32` into a signed one.
-/

namespace CInt

/-- Conversion to `uint16_t`. -/
def u16 (x : ℤ) : ℕ := (x % 65536).toNat

/-- Conversion to `uint32_t`. -/
def u32 (x : ℤ) : ℕ := (x % 4294967296).toNat

/-- Conversion to `int16_t`. -/
def i16 (x : ℤ) : ℤ := (x + 32768) % 65536 - 32768

/-- Conversion to `int32_t`. -/
def i32 (x : ℤ) : ℤ := (x + 2147483648) % 4294967296 - 2147483648

theorem u16_of_eq {x : ℤ} {n : ℕ} (h : x = n) (hn : n < 65536) : u16 x = n := by
  unfold u16; omega

theorem u16_lt (x : ℤ) : u16 x < 65536 := by unfold u16; omega

theorem u32_of_eq {x : ℤ} {n : ℕ} (h : x = n) (hn : n < 4294967296) : u32 x = n := by
  unfold u32; omega

theorem u32_lt (x : ℤ) : u32 x < 4294967296 := by unfold u32; omega

theorem i16_of_range {x : ℤ} (h : -32768 ≤ x) (h' : x < 32768) : i16 x = x := by
  unfold i16; omega

theorem i32_of_range {x : ℤ} (h : -2147483648 ≤ x) (h' : x < 2147483648) : i32 x = x := by
  unfold i32; omega

end CInt
