import Snort.Lib.Slice
import Snort.Sfrt.Model

/-!
# The bits of an address

An address of either family is a number of as many bits as the family has; the words of an IPv6 address
are slices of it.
-/

namespace Snort.Sfrt

open Slice

/-- The number of bits of an address. -/
def Family.bits : Family → ℕ
  | .inet => 32
  | .inet6 => 128

/-- The number that an address is. -/
def Adr.value : Adr → ℕ
  | .u32 ip => ip.toNat
  | .sfip ip =>
    match ip.family with
    | .inet => (ip.ip32 0).toNat
    | .inet6 => (((ip.ip32 0).toNat * 2 ^ 32 + (ip.ip32 1).toNat) * 2 ^ 32 + (ip.ip32 2).toNat) *
        2 ^ 32 + (ip.ip32 3).toNat

theorem value_lt (a : Adr) : a.value < 2 ^ a.family.bits := by
  cases a with
  | u32 ip => exact ip.isLt
  | sfip ip =>
    have h0 := (ip.ip32 0).isLt
    have h1 := (ip.ip32 1).isLt
    have h2 := (ip.ip32 2).isLt
    have h3 := (ip.ip32 3).isLt
    rw [Adr.value, Adr.family]
    cases ip.family with
    | inet => exact h0
    | inet6 =>
      simp only [Family.bits]
      omega

/-- The word that holds the bits from `off` on is a slice. -/
theorem slice_word (ip : Sfip) (h : ip.family = .inet6) {i : ℕ} (hi : i < 4) :
    (ip.ip32 i).toNat = Slice.slice 128 (Adr.sfip ip).value (32 * i) 32 := by
  have h0 := (ip.ip32 0).isLt
  have h1 := (ip.ip32 1).isLt
  have h2 := (ip.ip32 2).isLt
  have h3 := (ip.ip32 3).isLt
  simp only [Adr.value, h, Slice.slice]
  interval_cases i
  · simp; omega
  · simp; omega
  · simp; omega
  · simp; omega

end Snort.Sfrt
