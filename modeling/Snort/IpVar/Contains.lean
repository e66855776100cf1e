import Snort.IpVar.Parse

/-!
# The tests of containment

`sfip_contains`, and the fast tests once more, with the shifts that C leaves undefined marked.

* `maskLow`: clearing the low bits of a word by two shifts, of less than 32 bits.
* **`contAgree_iff`**: the fast test, the general one and the leading bits agree, without an undefined
  shift, for every network but the IPv4 ones of no bits.
-/

namespace Snort.IpVar

open Slice Sfrt

/-- `x >> n << n`; `none` where the shifts are undefined. -/
def maskLow (x : BitVec 32) (n : BitVec 32) : Option (BitVec 32) :=
  if n < 32 then some ((x >>> n) <<< n) else none

/-- `sfip_fast_cont4`; `none` with an undefined shift. -/
def sfipFastCont4Checked (ip1 ip2 : Sfip) : Option Bool :=
  let shift := 32 - (sfipBits ip1).setWidth 32
  (maskLow (ip2.ip32 0) shift).map fun ip => ip1.ip32 0 = ip

/-- `sfip_fast_cont6`; `none` with an undefined shift. -/
def sfipFastCont6Checked (ip1 ip2 : Sfip) : Option Bool :=
  let words := (sfipBits ip1).toNat / 32
  let bits := 32 - (sfipBits ip1).toNat % 32
  if (List.range words).any fun i => ip1.ip32 i ≠ ip2.ip32 i then some false
  else if bits = 32 then some true
  else (maskLow (ip2.ip32 words) (BitVec.ofNat 32 bits)).map fun ip => ip1.ip32 words = ip

/-- The results of `sfip_contains`. -/
inductive ContainsRet
  | contains
  | notContains
  | argErr
  deriving DecidableEq

/-- `sfip_ismapped`. -/
def sfipIsmapped (ip : Sfip) : Bool :=
  ip.family = .inet6 ∧ ip.ip32 0 = 0 ∧ ip.ip32 1 = 0 ∧ (ip.ip32 2 = 0xffff ∨ ip.ip32 2 = 0)

/-- The result for a comparison. -/
def containsRet (b : Bool) : ContainsRet := if b then .contains else .notContains

/-- `sfip_contains`; `none` with an undefined shift. -/
def sfipContains (net ip : Sfip) : Option ContainsRet :=
  let bits := (sfipBits net).setWidth 32
  if net.family ≠ ip.family then
    if net.family ≠ .inet ∨ ¬ sfipIsmapped ip then some .argErr
    else (maskLow (ip.ip32 3) (32 - bits)).map fun temp => containsRet (net.ip32 0 = temp)
  else
    -- the loop stops in front of the last word
    let i := min (bits.toNat / 32) 3
    if (List.range i).any fun i => net.ip32 i ≠ ip.ip32 i then some .notContains
    else
      let mask := 32 - (bits - 32 * BitVec.ofNat 32 i)
      if mask = 32 then some .contains
      else (maskLow (ip.ip32 i) mask).map fun temp => containsRet (net.ip32 i = temp)

/-! ### Networks of either family -/

/-- A network that `sfip_pton` or `sfip_cidr_mask` has produced. -/
def Produced (inetPton : Family → List Char → Option (ℕ → BitVec 32)) (net : Sfip) : Prop :=
  (∃ src, sfipPton inetPton src = .ok net) ∨ ∃ src, sfipCidrMask src src.bits = some net

theorem Produced.masked {inetPton : Family → List Char → Option (ℕ → BitVec 32)} {net : Sfip}
    (h : Produced inetPton net) : net.Masked := by
  rcases h with ⟨src, h⟩ | ⟨src, h⟩
  · exact masked_sfipPton h
  · exact masked_sfipCidrMask (Int.toNat_natCast _).symm h

/-- The fast test for the family of the address. -/
def fastContChecked (net ip : Sfip) : Option Bool :=
  if ip.family = .inet then sfipFastCont4Checked net ip else sfipFastCont6Checked net ip

theorem maskLow_of_lt {x n : BitVec 32} (h : n.toNat < 32) :
    maskLow x n = some ((x >>> n.toNat) <<< n.toNat) := by
  rw [maskLow, if_pos (BitVec.lt_def.2 h)]
  rfl

theorem toNat_bits {net : Sfip} (h : net.bits ≤ 128) :
    ((sfipBits net).setWidth 32).toNat = net.bits := by
  rw [BitVec.toNat_setWidth, sfipBits_toNat h]
  exact Nat.mod_eq_of_lt (by omega)

/-- The shift of `sfip_fast_cont4`. -/
theorem toNat_shift4 {net : Sfip} (h : net.bits ≤ 32) :
    (32 - (sfipBits net).setWidth 32 : BitVec 32).toNat = 32 - net.bits := by
  have hbits : ((sfipBits net).setWidth 32).toNat = net.bits := toNat_bits (by omega)
  rw [BitVec.toNat_sub_of_le (by rwa [BitVec.le_def, hbits]), hbits]
  rfl

theorem sfipFastCont4Checked_eq {net : Sfip} (hle : net.bits ≤ 32) (ip : Sfip) :
    sfipFastCont4Checked net ip = if net.bits = 0 then none else some (sfipFastCont4 net ip) := by
  have hshift := toNat_shift4 hle
  rw [sfipFastCont4Checked, sfipFastCont4]
  split_ifs with hzero
  · rw [maskLow, if_neg]
    · rfl
    · rw [BitVec.lt_def, hshift, hzero]
      decide
  · rw [maskLow_of_lt (by omega)]
    rfl

theorem sfipFastCont6Checked_eq {net : Sfip} (hle : net.bits ≤ 128) (ip : Sfip) :
    sfipFastCont6Checked net ip = some (sfipFastCont6 net ip) := by
  unfold sfipFastCont6Checked sfipFastCont6
  simp only [sfipBits_toNat hle]
  split_ifs with hne hzero
  · rfl
  · rfl
  · have hmod : (BitVec.ofNat 32 (32 - net.bits % 32)).toNat = 32 - net.bits % 32 := by
      rw [BitVec.toNat_ofNat]
      exact Nat.mod_eq_of_lt (by omega)
    rw [maskLow_of_lt (by omega), hmod]
    rfl

/-! ### The general test -/

/-- The shift of `sfip_contains` in the word of an index. -/
theorem toNat_mask_shift {net : Sfip} {i : ℕ} (hlo : 32 * i ≤ net.bits) (hhi : net.bits ≤ 32 * i + 32)
    (hle : net.bits ≤ 128) :
    (32 - ((sfipBits net).setWidth 32 - 32 * BitVec.ofNat 32 i) : BitVec 32).toNat =
      32 * i + 32 - net.bits := by
  have hbits := toNat_bits hle
  have hi : (32 * BitVec.ofNat 32 i : BitVec 32).toNat = 32 * i := by
    rw [BitVec.toNat_mul, BitVec.toNat_ofNat, Nat.mod_eq_of_lt (show i < 2 ^ 32 by omega)]
    exact Nat.mod_eq_of_lt (show 32 * i < 2 ^ 32 by omega)
  have hsub : ((sfipBits net).setWidth 32 - 32 * BitVec.ofNat 32 i : BitVec 32).toNat =
      net.bits - 32 * i := by
    rw [BitVec.toNat_sub_of_le (by rwa [BitVec.le_def, hi, hbits]), hbits, hi]
  have h32 : ((32 : BitVec 32)).toNat = 32 := rfl
  rw [BitVec.toNat_sub_of_le (by rw [BitVec.le_def, hsub, h32]; omega), hsub, h32]
  omega

/-- One word of the general test. -/
theorem contains_word {net ip : Sfip} {i : ℕ} (hlo : 32 * i ≤ net.bits)
    (hhi : net.bits ≤ 32 * i + 32) (hle : net.bits ≤ 128) :
    (if (32 - ((sfipBits net).setWidth 32 - 32 * BitVec.ofNat 32 i) : BitVec 32) = 32 then
        some ContainsRet.contains
      else (maskLow (ip.ip32 i) (32 - ((sfipBits net).setWidth 32 - 32 * BitVec.ofNat 32 i))).map
        fun temp => containsRet (net.ip32 i = temp)) =
      some (containsRet (32 * i = net.bits ∨
        net.ip32 i = (ip.ip32 i >>> (32 * i + 32 - net.bits)) <<< (32 * i + 32 - net.bits))) := by
  have hmask := toNat_mask_shift hlo hhi hle
  by_cases heq : 32 * i = net.bits
  · rw [if_pos]
    · simp [containsRet, heq]
    · rw [← BitVec.toNat_inj, hmask]
      show 32 * i + 32 - net.bits = 32
      omega
  · rw [if_neg, maskLow_of_lt (by omega), hmask]
    · simp [heq]
    · rw [← BitVec.toNat_inj, hmask]
      show 32 * i + 32 - net.bits ≠ 32
      omega

theorem sfipContains_inet {net ip : Sfip} (hle : net.bits ≤ 32) (hfam : net.family = ip.family) :
    sfipContains net ip = some (containsRet (net.bits = 0 ∨ sfipFastCont4 net ip)) := by
  have hdiv : ((sfipBits net).setWidth 32).toNat = net.bits := toNat_bits (by omega)
  rw [sfipContains, sfipFastCont4, BitVec.ushiftRight_eq', BitVec.shiftLeft_eq', toNat_shift4 hle]
  simp only [hdiv, hfam, ne_eq, not_true_eq_false, if_false]
  rcases Nat.lt_or_eq_of_le hle with hlt | heq
  · have hi : min (net.bits / 32) 3 = 0 := by omega
    simp only [hi, List.range_zero, List.any_nil, Bool.false_eq_true, if_false]
    rw [contains_word (by omega) (by omega) (by omega)]
    simp [eq_comm]
  · -- the only word is compared in the loop
    simp only [heq]
    by_cases hword : net.ip32 0 = ip.ip32 0
    · rw [if_neg (by simp [hword]), if_pos]
      · simp [containsRet, hword]
      · rw [← BitVec.toNat_inj, toNat_mask_shift (by omega) (by omega) (by omega), heq]
        rfl
    · rw [if_pos (by simp [hword])]
      simp [containsRet, hword]

theorem sfipContains_inet6 {net ip : Sfip} (hle : net.bits ≤ 128) (hfam : net.family = ip.family) :
    sfipContains net ip = some (containsRet (sfipFastCont6 net ip)) := by
  have hdiv : ((sfipBits net).setWidth 32).toNat = net.bits := toNat_bits hle
  unfold sfipContains sfipFastCont6
  simp only [hdiv, hfam, ne_eq, not_true_eq_false, if_false, sfipBits_toNat hle]
  rcases Nat.lt_or_eq_of_le hle with hlt | heq
  · obtain ⟨n, hn⟩ : ∃ n, n = net.bits / 32 := ⟨_, rfl⟩
    have hi : min (net.bits / 32) 3 = n := by omega
    rw [hi, ← hn]
    by_cases hne : ((List.range n).any fun i => decide ¬net.ip32 i = ip.ip32 i) = true
    · rw [if_pos hne, if_pos hne]
      rfl
    · rw [if_neg hne, if_neg hne, contains_word (by omega) (by omega) hle,
        show 32 * n + 32 - net.bits = 32 - net.bits % 32 by omega]
      split_ifs with hzero
      · simp [show 32 * n = net.bits by omega]
      · simp [show 32 * n ≠ net.bits by omega]
  · -- the last word is compared behind the loop
    rw [show min (net.bits / 32) 3 = 3 by omega, show net.bits / 32 = 4 by omega,
      show 32 - net.bits % 32 = 32 by omega, if_pos rfl, contains_word (by omega) (by omega) hle, heq]
    have hrange : ((List.range 4).any fun i => decide ¬net.ip32 i = ip.ip32 i) =
        (((List.range 3).any fun i => decide ¬net.ip32 i = ip.ip32 i) ||
          decide ¬net.ip32 3 = ip.ip32 3) := by
      rw [List.range_succ, List.any_append, List.any_cons, List.any_nil, Bool.or_false]
    rw [hrange]
    cases (List.range 3).any fun i => decide ¬net.ip32 i = ip.ip32 i with
    | true => rfl
    | false =>
      by_cases hword : net.ip32 3 = ip.ip32 3
      · simp [hword, containsRet]
      · simp [hword, containsRet]

/-! ### Agreement -/

/-- Both tests are defined, and both say whether the leading bits are equal. -/
def ContAgree (net ip : Sfip) : Prop :=
  ∃ fast ret, fastContChecked net ip = some fast ∧ sfipContains net ip = some ret ∧
    (fast = true ↔ ret = .contains) ∧ (ret = .contains ↔ net.Contains ip)

theorem containsRet_eq (b : Bool) : containsRet b = .contains ↔ b = true := by
  cases b <;> simp [containsRet]

/-- **The tests agree**, except for IPv4 networks of no bits. -/
theorem contAgree_iff {inetPton : Family → List Char → Option (ℕ → BitVec 32)} {net ip : Sfip}
    (hnet : Produced inetPton net) (hfam : net.family = ip.family) :
    ContAgree net ip ↔ ¬ (net.family = .inet ∧ net.bits = 0) := by
  have hmasked := hnet.masked
  cases hip : ip.family with
  | inet =>
    have hle : net.bits ≤ 32 := by
      have h := hmasked.bits_le
      rwa [hfam, hip] at h
    have hfast : fastContChecked net ip = sfipFastCont4Checked net ip := if_pos hip
    rw [ContAgree, hfast, sfipFastCont4Checked_eq hle, sfipContains_inet hle hfam, hfam, hip]
    by_cases hzero : net.bits = 0
    · simp [hzero]
    · simp [hzero, containsRet_eq, sfipFastCont4_iff hmasked (hfam.trans hip) hip]
  | inet6 =>
    have hle : net.bits ≤ 128 := by
      have h := hmasked.bits_le
      rwa [hfam, hip] at h
    have hfast : fastContChecked net ip = sfipFastCont6Checked net ip := if_neg (by simp [hip])
    rw [ContAgree, hfast, sfipFastCont6Checked_eq hle, sfipContains_inet6 hle hfam, hfam, hip]
    simp [containsRet_eq, sfipFastCont6_iff hmasked (hfam.trans hip) hip]

/-- 10.1.2.3 and 10.0.0.0/8. -/
theorem contAgree_iff_net4 : ∃ net : Sfip,
    sfipCidrMask (net4 0x0a000000 8) 8 = some net ∧
      (ContAgree net (net4 0x0a010203 32) ↔ ¬ (net.family = .inet ∧ net.bits = 0)) :=
  ⟨_, rfl, contAgree_iff
    (show Produced (fun _ _ => none) _ from .inr ⟨net4 0x0a000000 8, rfl⟩) rfl⟩

/-- 10.1.2.3 and 0.0.0.0/0: the fast test shifts by 32. -/
theorem fastCont4_shift : ∃ net : Sfip,
    sfipCidrMask (net4 0 0) 0 = some net ∧ net.family = .inet ∧
      fastContChecked net (net4 0x0a010203 32) = none ∧
      sfipContains net (net4 0x0a010203 32) = some .contains ∧
      ¬ ContAgree net (net4 0x0a010203 32) := by
  refine ⟨_, rfl, rfl, by decide, by decide, ?_⟩
  rintro ⟨fast, ret, hfast, -⟩
  exact Option.some_ne_none _ hfast.symm

end Snort.IpVar
