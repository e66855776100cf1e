import Snort.Lib.Numeral
import Snort.Asn1.Model

/-!
# Overlong numbers

* `lengthOctets`, `tagSeptets`: the digits of a length and of a tag number;
* `asn1DecodeLenExt_ok_iff`, `asn1DecodeTagNumExt_ok_iff`: when a number is accepted, and which one;
* `Detected`: an accepted number is exact, and one that does not fit 32 bits is not accepted;
* **`overlong_detected_iff`**: this holds if and only if the number fits, or is seen to wrap around, or the window
  ends too early.
-/

namespace Snort.Asn1

open Numeral

/-- The octets of a length in its extended form, as far as the window has them. -/
def lengthOctets : List UInt8 → List ℕ
  | [] => []
  | b :: rest => (rest.take (b.toNat % 128)).map UInt8.toNat

/-- The base 128 digits of an extended tag number: up to the first octet without the extension bit. -/
def tagSeptets : List UInt8 → List ℕ
  | [] => []
  | b :: rest => b.toNat % 128 :: if 128 ≤ b.toNat then tagSeptets rest else []

theorem lenExtLoop_ok_iff (bytes : ℕ) {window : List UInt8} (hne : window ≠ []) (size n : ℕ) (rest : List UInt8) :
    lenExtLoop bytes window size = some (.ok, rest, n) ↔
      accumulate 256 (2 ^ 32) size ((window.take bytes).map UInt8.toNat) = some n ∧ rest = window.drop bytes ∧
        (bytes < window.length ∨ bytes = window.length ∧ n = 0) := by
  induction bytes generalizing window size with
  | zero =>
    have hpos : 0 < window.length := List.length_pos_iff.2 hne
    simp only [lenExtLoop, List.take_zero, List.map_nil, accumulate, List.drop_zero, hpos, true_or, and_true,
      Option.some.injEq, Prod.mk.injEq, true_and]
    constructor
    · rintro ⟨rfl, rfl⟩
      exact ⟨rfl, rfl⟩
    · rintro ⟨rfl, rfl⟩
      exact ⟨rfl, rfl⟩
  | succ bytes ih =>
    obtain ⟨b, window, rfl⟩ := List.exists_cons_of_ne_nil hne
    simp only [lenExtLoop, List.take_succ_cons, List.map_cons, accumulate, List.drop_succ_cons, List.length_cons,
      Nat.add_lt_add_iff_right, Nat.add_right_cancel_iff]
    by_cases hdrop : size ≠ 0 ∧ (256 * size + b.toNat) % 2 ^ 32 ≤ size
    · rw [if_pos hdrop, if_pos hdrop]
      simp
    rw [if_neg hdrop, if_neg hdrop]
    by_cases hlast : window = []
    · subst hlast
      rw [if_pos rfl]
      by_cases hzero : (256 * size + b.toNat) % 2 ^ 32 = 0 ∧ bytes = 0
      · obtain ⟨hzero, rfl⟩ := hzero
        rw [if_pos ⟨hzero, rfl⟩, hzero]
        simp [accumulate, eq_comm]
      · rw [if_neg hzero]
        constructor
        · simp
        · rintro ⟨hread, -, hlt | ⟨rfl, rfl⟩⟩
          · exact absurd hlt (by simp)
          · exact absurd ⟨by simpa [accumulate] using hread, rfl⟩ hzero
    · rw [if_neg hlast]
      exact ih hlast _

/-- An extended length is accepted if its octets are in the window, an octet follows or the length is zero, and the
register does not drop. -/
theorem asn1DecodeLenExt_ok_iff (b : UInt8) (window rest : List UInt8) (n : ℕ) :
    asn1DecodeLenExt (b :: window) = some (.ok, rest, n) ↔
      accumulate 256 (2 ^ 32) 0 (lengthOctets (b :: window)) = some n ∧ window ≠ [] ∧
        rest = window.drop (b.toNat % 128) ∧
        (b.toNat % 128 < window.length ∨ b.toNat % 128 = window.length ∧ n = 0) := by
  rw [asn1DecodeLenExt]
  by_cases hne : window = []
  · simp [hne]
  · rw [if_neg hne, lenExtLoop_ok_iff _ hne, lengthOctets]
    simp [hne]

/-- An extended tag number is accepted if an octet follows its last one and the register does not drop. -/
theorem asn1DecodeTagNumExt_ok_iff (window rest : List UInt8) (tagNum n : ℕ) :
    asn1DecodeTagNumExt window tagNum = some (.ok, rest, n) ↔
      accumulate 128 (2 ^ 32) tagNum (tagSeptets window) = some n ∧ rest = window.drop (tagSeptets window).length ∧
        (tagSeptets window).length < window.length := by
  induction window generalizing tagNum with
  | nil => simp [asn1DecodeTagNumExt, tagSeptets]
  | cons b window ih =>
    simp only [asn1DecodeTagNumExt, tagSeptets, accumulate, List.length_cons, List.drop_succ_cons,
      Nat.add_lt_add_iff_right]
    by_cases hdrop : tagNum ≠ 0 ∧ (128 * tagNum + b.toNat % 128) % 2 ^ 32 ≤ tagNum
    · rw [if_pos hdrop, if_pos hdrop]
      simp
    rw [if_neg hdrop, if_neg hdrop]
    by_cases hlast : window = []
    · simp [hlast, tagSeptets]
    rw [if_neg hlast]
    by_cases hext : 128 ≤ b.toNat
    · rw [if_pos hext, if_pos hext]
      exact ih _
    · have hpos : 0 < window.length := List.length_pos_iff.2 hlast
      rw [if_neg hext, if_neg hext]
      simp only [accumulate, List.length_nil, List.drop_zero, hpos, and_true, Option.some.injEq, Prod.mk.injEq, true_and]
      constructor
      · rintro ⟨rfl, rfl⟩
        exact ⟨rfl, rfl⟩
      · rintro ⟨rfl, rfl⟩
        exact ⟨rfl, rfl⟩

/-! ### Detection -/

/-- An accepted number is the exact one, and one that does not fit 32 bits is not accepted. -/
def Detected (result : Option (Ret × List UInt8 × ℕ)) (exact : ℕ) : Prop :=
  (∀ rest n, result = some (.ok, rest, n) → n = exact) ∧
    (2 ^ 32 ≤ exact → ∀ rest n, result ≠ some (.ok, rest, n))

/-- What is accepted is what was read, behind a condition on the window. -/
theorem detected_iff {result : Option (Ret × List UInt8 × ℕ)} {base : ℕ} {ds : List ℕ} {fits : Prop}
    (hresult : (∃ rest n, result = some (.ok, rest, n)) → fits)
    (hread : ∀ rest n, result = some (.ok, rest, n) → accumulate base (2 ^ 32) 0 ds = some n)
    (haccept : fits → ∀ n, accumulate base (2 ^ 32) 0 ds = some n → ∃ rest, result = some (.ok, rest, n)) :
    Detected result (value base ds) ↔ value base ds < 2 ^ 32 ∨ Drops base (2 ^ 32) ds ∨ ¬fits := by
  have hexact : (∀ v, accumulate base (2 ^ 32) 0 ds = some v → v = value base ds) ↔
      value base ds < 2 ^ 32 ∨ Drops base (2 ^ 32) ds := accumulate_exact_iff (by norm_num) ds
  constructor
  · rintro ⟨hvalue, -⟩
    by_cases hfits : fits
    · have hread' : ∀ v, accumulate base (2 ^ 32) 0 ds = some v → v = value base ds := by
        intro v hv
        obtain ⟨rest, hrest⟩ := haccept hfits v hv
        exact hvalue rest v hrest
      rcases hexact.1 hread' with h | h
      · exact .inl h
      · exact .inr (.inl h)
    · exact .inr (.inr hfits)
  · intro h
    have hvalue : ∀ rest n, result = some (.ok, rest, n) → n = value base ds := by
      intro rest n hrest
      apply hexact.2 _ n (hread rest n hrest)
      rcases h with h | h | h
      · exact .inl h
      · exact .inr h
      · exact absurd (hresult ⟨rest, n, hrest⟩) h
    refine ⟨hvalue, fun hlong rest n hrest => ?_⟩
    have hn := hread rest n hrest
    rw [accumulate_eq] at hn
    split at hn
    · cases hn
    · have hlt := Nat.mod_lt (value base ds) (show 0 < 2 ^ 32 by norm_num)
      rw [Option.some.inj hn, hvalue rest n hrest] at hlt
      omega

/-- The register holds zero only when it was never anything else. -/
theorem value_eq_zero_of_accumulate {base : ℕ} {ds : List ℕ} (hds : ∀ d ∈ ds, d < 2 ^ 32)
    (h : accumulate base (2 ^ 32) 0 ds = some 0) : value base ds = 0 := by
  induction ds using List.reverseRecOn with
  | nil => rfl
  | append_singleton ds d ih =>
    rw [accumulate_eq] at h
    split at h
    · cases h
    rename_i hdrops
    have hzero : value base (ds ++ [d]) % 2 ^ 32 = 0 := Option.some.inj h
    have hprefix : value base ds % 2 ^ 32 = 0 := by
      by_contra hne
      refine hdrops ⟨ds.length, by simp, ?_, ?_⟩
      · rwa [List.take_left]
      · rw [List.take_left, List.take_of_length_le (by simp), hzero]
        exact Nat.zero_le _
    have hnone : ¬Drops base (2 ^ 32) ds := by
      rintro ⟨i, hi, hdrop⟩
      refine hdrops ⟨i, by simp; omega, ?_⟩
      rwa [DropsAt, List.take_append_of_le_length (by omega), List.take_append_of_le_length (by omega)]
    have hds' : value base ds = 0 := by
      apply ih fun e he => hds e (List.mem_append_left _ he)
      rw [accumulate_eq, if_neg hnone, hprefix]
    have hd := hds d (by simp)
    rw [value_concat, hds', Nat.mul_zero, Nat.zero_add] at hzero ⊢
    rwa [Nat.mod_eq_of_lt hd] at hzero

/-- The window of an extended length ends with its octets, or in front of the last one. -/
def LengthEnds (window : List UInt8) : Prop := window.length ≤ (window.headD 0).toNat % 128 + 1

/-- The window of an extended tag number ends with it, or in front of its last octet. -/
def TagEnds (window : List UInt8) : Prop := window.length ≤ (tagSeptets window).length

theorem lengthDetected_iff (window : List UInt8) :
    Detected (asn1DecodeLenExt window) (value 256 (lengthOctets window)) ↔
      value 256 (lengthOctets window) < 2 ^ 32 ∨ Drops 256 (2 ^ 32) (lengthOctets window) ∨ LengthEnds window := by
  cases window with
  | nil => simp [Detected, asn1DecodeLenExt, lengthOctets, LengthEnds]
  | cons b window =>
    by_cases hvalue : value 256 (lengthOctets (b :: window)) = 0
    · -- a length of zero is accepted at the end of the buffer as well
      have hdetected : Detected (asn1DecodeLenExt (b :: window)) (value 256 (lengthOctets (b :: window))) := by
        refine ⟨fun rest n h => ?_, fun h => by omega⟩
        have hread := ((asn1DecodeLenExt_ok_iff b window rest n).1 h).1
        exact (accumulate_exact_iff (by norm_num) _).2 (.inl (by omega)) n hread
      exact iff_of_true hdetected (.inl (by omega))
    have hends : LengthEnds (b :: window) ↔ ¬b.toNat % 128 < window.length := by
      simp [LengthEnds]
    rw [hends]
    apply detected_iff
    · rintro ⟨rest, n, h⟩
      obtain ⟨hread, -, -, hlt | ⟨-, rfl⟩⟩ := (asn1DecodeLenExt_ok_iff b window rest n).1 h
      · exact hlt
      · refine absurd (value_eq_zero_of_accumulate (fun d hd => ?_) hread) hvalue
        obtain ⟨c, -, rfl⟩ := List.mem_map.1 hd
        have := c.toNat_lt
        omega
    · intro rest n h
      exact ((asn1DecodeLenExt_ok_iff b window rest n).1 h).1
    · intro hlt n hread
      exact ⟨_, (asn1DecodeLenExt_ok_iff b window _ n).2
        ⟨hread, List.length_pos_iff.1 (by omega), rfl, .inl hlt⟩⟩

theorem tagDetected_iff (window : List UInt8) :
    Detected (asn1DecodeTagNumExt window 0) (value 128 (tagSeptets window)) ↔
      value 128 (tagSeptets window) < 2 ^ 32 ∨ Drops 128 (2 ^ 32) (tagSeptets window) ∨ TagEnds window := by
  have hends : TagEnds window ↔ ¬(tagSeptets window).length < window.length := by simp [TagEnds]
  rw [hends]
  apply detected_iff
  · rintro ⟨rest, n, h⟩
    exact ((asn1DecodeTagNumExt_ok_iff window rest 0 n).1 h).2.2
  · intro rest n h
    exact ((asn1DecodeTagNumExt_ok_iff window rest 0 n).1 h).1
  · intro hlt n hread
    exact ⟨_, (asn1DecodeTagNumExt_ok_iff window _ 0 n).2 ⟨hread, rfl, hlt⟩⟩

/-- **Overlong numbers**: an accepted length or tag number is exact, and one that does not fit 32 bits is refused,
if and only if the number fits, or the register is seen to wrap around, or the window ends too early. -/
theorem overlong_detected_iff (window : List UInt8) :
    (Detected (asn1DecodeLenExt window) (value 256 (lengthOctets window)) ↔
      value 256 (lengthOctets window) < 2 ^ 32 ∨ Drops 256 (2 ^ 32) (lengthOctets window) ∨ LengthEnds window) ∧
    (Detected (asn1DecodeTagNumExt window 0) (value 128 (tagSeptets window)) ↔
      value 128 (tagSeptets window) < 2 ^ 32 ∨ Drops 128 (2 ^ 32) (tagSeptets window) ∨ TagEnds window) :=
  ⟨lengthDetected_iff window, tagDetected_iff window⟩

/-- Five octets that spell 2 ^ 33 - 1 are accepted as 2 ^ 32 - 1, in a length and in a tag number. -/
theorem overlong_accepted :
    ¬∀ window, Detected (asn1DecodeLenExt window) (value 256 (lengthOctets window)) ∧
      Detected (asn1DecodeTagNumExt window 0) (value 128 (tagSeptets window)) := by
  intro h
  have hlength := (h [0x85, 0x01, 0xff, 0xff, 0xff, 0xff, 0x00]).1.1 [0x00] 0xffffffff (by decide)
  exact absurd hlength (by decide)

-- The same for a tag number.
example : asn1DecodeTagNumExt [0x9f, 0xff, 0xff, 0xff, 0x7f, 0x00] 0 = some (.ok, [0x00], 0xffffffff) ∧
    value 128 (tagSeptets [0x9f, 0xff, 0xff, 0xff, 0x7f, 0x00]) = 0x1ffffffff := by
  decide

end Snort.Asn1
