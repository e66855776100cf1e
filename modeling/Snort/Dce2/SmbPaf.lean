import Snort.Lib.Feed
import Snort.Lib.Numeral

/-!
# Flush points of NetBIOS messages

* `smbPaf`: the callback, which looks for an SMB header where there is no NetBIOS header;
* `Messages`: the messages that a stream is to be cut into;
* `run_header`, `run_resync`: where the callback stops behind a flush point;
* `points_iff`: the callback finds the messages.

The session is known and not aborted.

* `points_iff`: in a stream in one piece the callback finds the messages;
* **`smb_segmented_iff`**: in segments it finds them, with offsets of at least 1, if and only if no segment ends
  from the end of a message on up to the last byte that is needed to find it.
-/

namespace Snort.Dce2

open Scanner Feed Numeral

/-! ### The callback -/

/-- `DCE2_PafSmbState`. -/
structure PafSmbState where
  state : ℕ
  nbHdr : UInt64
  deriving DecidableEq

/-- `NBSS_SESSION_TYPE__*`. -/
def nbssMessage : UInt8 := 0x00

def nbssTypes : List UInt8 := [nbssMessage, 0x81, 0x82, 0x83, 0x84, 0x85]

def smbId : UInt32 := 0xff534d42

def smb2Id : UInt32 := 0xfe534d42

/-- `DCE2_SMB_PAF_SHIFT`. -/
def pafShift (x64 : UInt64) (x8 : UInt8) : UInt64 := x64 <<< 8 ||| x8.toUInt64

/-- `DCE2_PafSmbIsValidNetbiosHdr`. -/
def pafSmbIsValidNetbiosHdr (nbHdr : UInt32) (junk : Bool) : Bool :=
  let type := (nbHdr >>> 24).toUInt8
  let bit := ((nbHdr &&& 0x00ff0000) >>> 16).toUInt8
  (if junk then type = nbssMessage else type ∈ nbssTypes) && (bit = 0 || bit = 1)

/-- `NbssLen`, of a header in host order. -/
def nbssLen (nbHdr : UInt32) : UInt32 := ((nbHdr >>> 16) &&& 0x01) <<< 16 ||| nbHdr &&& 0xffff

/-- A byte of the loop of `DCE2_SmbPaf`. -/
def smbByte (ss : PafSmbState) (b : UInt8) : PafSmbState ⊕ Option ℤ :=
  if ss.state = 0 then .inl ⟨1, b.toUInt64⟩
  else
    let nbHdr := pafShift ss.nbHdr b
    if ss.state = 3 then
      if pafSmbIsValidNetbiosHdr nbHdr.toUInt32 false then .inr (some ((nbssLen nbHdr.toUInt32).toNat + 4 - 3))
      else .inl ⟨4, nbHdr⟩
    else if ss.state = 7 then
      if ¬pafSmbIsValidNetbiosHdr (nbHdr >>> 32).toUInt32 true then .inl ⟨7, nbHdr⟩
      else if nbHdr.toUInt32 ≠ smbId ∧ nbHdr.toUInt32 ≠ smb2Id then .inl ⟨7, nbHdr⟩
      else .inr (some ((nbssLen (nbHdr >>> 32).toUInt32).toNat + 4 - 7))
    else .inl ⟨ss.state + 1, nbHdr⟩

/-- `DCE2_SmbPaf`, called for all data of a session; state 0 does not read `nb_hdr`. -/
def smbPaf : Callback PafSmbState UInt8 := ⟨⟨0, 0⟩, smbByte⟩

/-! ### Messages -/

/-- The type and the bit of a header. -/
def validHeader (junk : Bool) (type bit : UInt8) : Bool :=
  (if junk then type = nbssMessage else type ∈ nbssTypes) && (bit = 0 || bit = 1)

/-- There is a valid header in front. -/
def startsHeader (junk : Bool) : List UInt8 → Bool
  | b₀ :: b₁ :: _ :: _ :: _ => validHeader junk b₀ b₁
  | _ => false

/-- There is the header of a session message in front, with an SMB or SMB2 id behind it. -/
def startsSmb : List UInt8 → Bool
  | b₀ :: b₁ :: _ :: _ :: i₀ :: i₁ :: i₂ :: i₃ :: _ =>
    validHeader true b₀ b₁ && (i₀ = 0xff || i₀ = 0xfe) && i₁ = 0x53 && i₂ = 0x4d && i₃ = 0x42
  | _ => false

/-- The length of 17 bits in a header in front. -/
def headerLen : List UInt8 → ℕ
  | _ :: b₁ :: b₂ :: b₃ :: _ => b₁.toNat % 2 * 65536 + b₂.toNat * 256 + b₃.toNat
  | _ => 0

/-- There is an SMB header behind the front of some data, and no earlier one. -/
def FirstSmb (data : List UInt8) (h : ℕ) : Prop :=
  0 < h ∧ startsSmb (data.drop h) ∧ ∀ j, 0 < j → j < h → ¬startsSmb (data.drop j)

/-- The messages of a stream from a flush point on: the position of the last byte that is needed to find the
message, which is the last one of its header, or of the id if there is none in front, and where it ends. -/
inductive Messages : ℕ → List UInt8 → List (ℕ × ℕ) → Prop
  | done {q : ℕ} {data : List UInt8} (h : ¬startsHeader false data) (hsmb : ∀ h, ¬FirstSmb data h) :
    Messages q data []
  | header {q : ℕ} {data : List UInt8} {ms : List (ℕ × ℕ)} (h : startsHeader false data)
    (hms : Messages (q + (4 + headerLen data)) (data.drop (4 + headerLen data)) ms) :
    Messages q data ((q + 3, q + (4 + headerLen data)) :: ms)
  | smb {q h : ℕ} {data : List UInt8} {ms : List (ℕ × ℕ)} (hnone : ¬startsHeader false data)
    (hsmb : FirstSmb data h)
    (hms : Messages (q + (h + 4 + headerLen (data.drop h))) (data.drop (h + 4 + headerLen (data.drop h))) ms) :
    Messages q data ((q + (h + 7), q + (h + 4 + headerLen (data.drop h))) :: ms)

/-! ### The header word -/

/-- The last bytes that were shifted into a word. -/
def Holds (x64 : UInt64) (w : List UInt8) : Prop :=
  x64.toNat % 256 ^ w.length = value 256 (w.map UInt8.toNat)

theorem toNat_pafShift (x64 : UInt64) (x8 : UInt8) :
    (pafShift x64 x8).toNat = (256 * x64.toNat + x8.toNat) % 2 ^ 64 := by
  have hb := x8.toNat_lt
  have hshift : x64.toNat <<< 8 % 2 ^ 64 = (x64.toNat % 2 ^ 56) <<< 8 := by
    rw [Nat.shiftLeft_eq, Nat.shiftLeft_eq]
    omega
  have hor : (x64.toNat % 2 ^ 56) <<< 8 ||| x8.toNat = (x64.toNat % 2 ^ 56) <<< 8 + x8.toNat :=
    (Nat.shiftLeft_add_eq_or_of_lt hb _).symm
  rw [pafShift, UInt64.toNat_or, UInt64.toNat_shiftLeft, UInt8.toNat_toUInt64]
  simp only [UInt64.toNat_ofNat, hshift, hor]
  rw [Nat.shiftLeft_eq]
  omega

theorem Holds.shift {x64 : UInt64} {w : List UInt8} (h : Holds x64 w) (hw : w.length ≤ 7) (b : UInt8) :
    Holds (pafShift x64 b) (w ++ [b]) := by
  have hb := b.toNat_lt
  have hdvd : 256 ^ (w.length + 1) ∣ 2 ^ 64 := by
    rw [show (256 : ℕ) = 2 ^ 8 by norm_num, ← Nat.pow_mul]
    exact Nat.pow_dvd_pow 2 (by omega)
  have hmod : (256 * x64.toNat + b.toNat) % (256 ^ w.length * 256) = 256 * (x64.toNat % 256 ^ w.length) + b.toNat := by
    have hlt : x64.toNat % 256 ^ w.length + 1 ≤ 256 ^ w.length := Nat.mod_lt _ (by positivity)
    have hsplit : 256 * x64.toNat + b.toNat = 256 * (x64.toNat % 256 ^ w.length) + b.toNat +
        256 ^ w.length * 256 * (x64.toNat / 256 ^ w.length) := by
      conv_lhs => rw [← Nat.mod_add_div x64.toNat (256 ^ w.length)]
      ring
    rw [hsplit, Nat.add_mul_mod_self_left, Nat.mod_eq_of_lt (by omega)]
  unfold Holds at h ⊢
  rw [toNat_pafShift, List.length_append, List.length_singleton, Nat.mod_mod_of_dvd _ hdvd, List.map_append,
    List.map_singleton, value_concat, ← h, Nat.pow_succ, hmod]

theorem value_toNat_lt (w : List UInt8) : value 256 (w.map UInt8.toNat) < 256 ^ w.length := by
  have hdigit : ∀ d ∈ w.map UInt8.toNat, d < 256 := by
    intro d hd
    obtain ⟨b, -, rfl⟩ := List.mem_map.1 hd
    exact b.toNat_lt
  simpa using value_lt hdigit

theorem Holds.tail {x64 : UInt64} {b : UInt8} {w : List UInt8} (h : Holds x64 (b :: w)) : Holds x64 w := by
  have hdvd : 256 ^ w.length ∣ 256 ^ (w.length + 1) := Nat.pow_dvd_pow 256 (by omega)
  have hvalue : value 256 ((b :: w).map UInt8.toNat) =
      b.toNat * 256 ^ w.length + value 256 (w.map UInt8.toNat) := by
    rw [List.map_cons, ← List.singleton_append, value_append, List.length_map]
    simp [value]
  unfold Holds at h ⊢
  rw [← Nat.mod_mod_of_dvd _ hdvd, ← List.length_cons (a := b), h, hvalue, Nat.mul_add_mod_self_right,
    Nat.mod_eq_of_lt (value_toNat_lt w)]

theorem holds_first (b : UInt8) : Holds b.toUInt64 [b] := by
  have := b.toNat_lt
  simp only [Holds, List.length_singleton, List.map_singleton, UInt8.toNat_toUInt64]
  simp [value]

theorem value_four (a b c d : ℕ) : value 256 [a, b, c, d] = 256 * (256 * (256 * a + b) + c) + d := by
  simp [value]

section HeaderWord

variable {nbHdr : UInt32} {b₀ b₁ b₂ b₃ : UInt8}

theorem typeByte_eq (h : nbHdr.toNat = value 256 ([b₀, b₁, b₂, b₃].map UInt8.toNat)) :
    (nbHdr >>> 24).toUInt8 = b₀ := by
  have := b₀.toNat_lt
  have := b₁.toNat_lt
  have := b₂.toNat_lt
  have := b₃.toNat_lt
  simp only [List.map, value_four] at h
  apply UInt8.toNat_inj.1
  show nbHdr.toNat >>> 24 % 256 = _
  rw [h, Nat.shiftRight_eq_div_pow]
  omega

theorem bitByte_eq (h : nbHdr.toNat = value 256 ([b₀, b₁, b₂, b₃].map UInt8.toNat)) :
    ((nbHdr &&& 0x00ff0000) >>> 16).toUInt8 = b₁ := by
  have := b₁.toNat_lt
  have := b₂.toNat_lt
  have := b₃.toNat_lt
  simp only [List.map, value_four] at h
  apply UInt8.toNat_inj.1
  have hand : (nbHdr.toNat &&& 0xff0000) >>> 16 = (nbHdr.toNat >>> 16) % 256 := by
    rw [Nat.shiftRight_and_distrib]
    exact Nat.and_two_pow_sub_one_eq_mod _ 8
  show (nbHdr.toNat &&& 0xff0000) >>> 16 % 256 = _
  rw [hand, h, Nat.shiftRight_eq_div_pow]
  omega

theorem valid_eq (h : nbHdr.toNat = value 256 ([b₀, b₁, b₂, b₃].map UInt8.toNat)) (junk : Bool) :
    pafSmbIsValidNetbiosHdr nbHdr junk = validHeader junk b₀ b₁ := by
  rw [pafSmbIsValidNetbiosHdr, typeByte_eq h, bitByte_eq h, validHeader]

theorem nbssLen_eq (h : nbHdr.toNat = value 256 ([b₀, b₁, b₂, b₃].map UInt8.toNat)) :
    (nbssLen nbHdr).toNat = b₁.toNat % 2 * 65536 + b₂.toNat * 256 + b₃.toNat := by
  have := b₁.toNat_lt
  have := b₂.toNat_lt
  have := b₃.toNat_lt
  simp only [List.map, value_four] at h
  have hone : (nbHdr.toNat >>> 16) &&& 1 = (nbHdr.toNat >>> 16) % 2 := Nat.and_one_is_mod _
  have hlow : nbHdr.toNat &&& 0xffff = nbHdr.toNat % 2 ^ 16 := Nat.and_two_pow_sub_one_eq_mod _ 16
  have hlt : nbHdr.toNat % 2 ^ 16 < 2 ^ 16 := Nat.mod_lt _ (by norm_num)
  have hlen : (nbssLen nbHdr).toNat = ((nbHdr.toNat >>> 16) &&& 1) <<< 16 % 2 ^ 32 ||| nbHdr.toNat &&& 0xffff := rfl
  have hfit : ((nbHdr.toNat >>> 16) % 2) <<< 16 < 2 ^ 32 := by
    rw [Nat.shiftLeft_eq]
    omega
  rw [hlen, hone, hlow, Nat.mod_eq_of_lt hfit, ← Nat.shiftLeft_add_eq_or_of_lt hlt, Nat.shiftLeft_eq, h,
    Nat.shiftRight_eq_div_pow]
  omega

theorem smbId_iff (h : nbHdr.toNat = value 256 ([b₀, b₁, b₂, b₃].map UInt8.toNat)) :
    (nbHdr = smbId ∨ nbHdr = smb2Id) ↔ (b₀ = 0xff ∨ b₀ = 0xfe) ∧ b₁ = 0x53 ∧ b₂ = 0x4d ∧ b₃ = 0x42 := by
  have := b₀.toNat_lt
  have := b₁.toNat_lt
  have := b₂.toNat_lt
  have := b₃.toNat_lt
  simp only [List.map, value_four] at h
  simp only [smbId, smb2Id, ← UInt32.toNat_inj, ← UInt8.toNat_inj, h]
  simp only [UInt32.reduceToNat, UInt8.reduceToNat]
  omega

end HeaderWord

/-- The low word holds the last four bytes. -/
theorem Holds.low {x64 : UInt64} {b₀ b₁ b₂ b₃ : UInt8} (h : Holds x64 [b₀, b₁, b₂, b₃]) :
    x64.toUInt32.toNat = value 256 ([b₀, b₁, b₂, b₃].map UInt8.toNat) := by
  have hpow : (256 : ℕ) ^ [b₀, b₁, b₂, b₃].length = 2 ^ 32 := by norm_num
  rw [Holds, hpow] at h
  rw [UInt64.toNat_toUInt32, h]

/-- The high word holds the four bytes in front of them. -/
theorem Holds.high {x64 : UInt64} {b₀ b₁ b₂ b₃ i₀ i₁ i₂ i₃ : UInt8}
    (h : Holds x64 [b₀, b₁, b₂, b₃, i₀, i₁, i₂, i₃]) :
    (x64 >>> 32).toUInt32.toNat = value 256 ([b₀, b₁, b₂, b₃].map UInt8.toNat) := by
  have hlt := x64.toNat_lt
  have hlow := value_toNat_lt [i₀, i₁, i₂, i₃]
  have hhigh := value_toNat_lt [b₀, b₁, b₂, b₃]
  have hx : x64.toNat = value 256 ([b₀, b₁, b₂, b₃].map UInt8.toNat) * 256 ^ 4 +
      value 256 ([i₀, i₁, i₂, i₃].map UInt8.toNat) := by
    have happend := @value_append 256 ([b₀, b₁, b₂, b₃].map UInt8.toNat) ([i₀, i₁, i₂, i₃].map UInt8.toNat)
    rw [List.length_map] at happend
    have hpow : (256 : ℕ) ^ [b₀, b₁, b₂, b₃, i₀, i₁, i₂, i₃].length = 2 ^ 64 := by norm_num
    rw [Holds, hpow, Nat.mod_eq_of_lt hlt] at h
    exact h.trans happend
  simp only [List.length_cons, List.length_nil] at hlow hhigh
  rw [UInt64.toNat_toUInt32, UInt64.toNat_shiftRight, hx]
  simp only [UInt64.reduceToNat, Nat.reduceMod, Nat.shiftRight_eq_div_pow]
  omega

/-! ### The callback behind a flush point -/

/-- With eight bytes in the word the callback stops just when they are an SMB header. -/
theorem smbByte_seven {x64 : UInt64} {b₀ b₁ b₂ b₃ i₀ i₁ i₂ b : UInt8}
    (hx : Holds x64 [b₀, b₁, b₂, b₃, i₀, i₁, i₂]) (rest : List UInt8) :
    smbByte ⟨7, x64⟩ b =
      if startsSmb ([b₀, b₁, b₂, b₃, i₀, i₁, i₂] ++ b :: rest) then
        .inr (some (headerLen ([b₀, b₁, b₂, b₃, i₀, i₁, i₂] ++ b :: rest) - 3))
      else .inl ⟨7, pafShift x64 b⟩ := by
  have hall : Holds (pafShift x64 b) [b₀, b₁, b₂, b₃, i₀, i₁, i₂, b] := hx.shift (by simp) b
  have hid := smbId_iff hall.tail.tail.tail.tail.low
  have hstarts : startsSmb ([b₀, b₁, b₂, b₃, i₀, i₁, i₂] ++ b :: rest) = true ↔
      validHeader true b₀ b₁ = true ∧ ((pafShift x64 b).toUInt32 = smbId ∨ (pafShift x64 b).toUInt32 = smb2Id) := by
    rw [hid]
    simp [startsSmb, and_assoc]
  rw [smbByte, if_neg (by simp), if_neg (by simp), if_pos rfl]
  simp only [valid_eq hall.high, nbssLen_eq hall.high]
  by_cases hvalid : validHeader true b₀ b₁ = true
  · by_cases hsmb : (pafShift x64 b).toUInt32 = smbId ∨ (pafShift x64 b).toUInt32 = smb2Id
    · have hne : ¬((pafShift x64 b).toUInt32 ≠ smbId ∧ (pafShift x64 b).toUInt32 ≠ smb2Id) := by tauto
      rw [if_neg (not_not.2 hvalid), if_neg hne, if_pos (hstarts.2 ⟨hvalid, hsmb⟩)]
      have hlen : headerLen ([b₀, b₁, b₂, b₃, i₀, i₁, i₂] ++ b :: rest) =
        b₁.toNat % 2 * 65536 + b₂.toNat * 256 + b₃.toNat := rfl
      rw [hlen]
      generalize b₁.toNat % 2 * 65536 + b₂.toNat * 256 + b₃.toNat = len
      rw [show (len : ℤ) + 4 - 7 = len - 3 by ring]
    · have hne : (pafShift x64 b).toUInt32 ≠ smbId ∧ (pafShift x64 b).toUInt32 ≠ smb2Id := by tauto
      rw [if_neg (not_not.2 hvalid), if_pos hne, if_neg fun h => hsmb (hstarts.1 h).2]
  · rw [if_pos hvalid, if_neg fun h => hvalid (hstarts.1 h).1]

theorem not_startsSmb_of_length {data : List UInt8} (h : data.length < 8) : ¬startsSmb data := by
  match data with
  | [] | [_] | [_, _] | [_, _, _] | [_, _, _, _] | [_, _, _, _, _] | [_, _, _, _, _, _]
  | [_, _, _, _, _, _, _] => simp [startsSmb]
  | _ :: _ :: _ :: _ :: _ :: _ :: _ :: _ :: _ =>
    simp only [List.length_cons] at h
    omega

/-- In front there is no header: the callback looks for an SMB header, with seven bytes in the word. -/
theorem run_resync {x64 : UInt64} {w : List UInt8} (hw : w.length = 7) (hx : Holds x64 w) (rest : List UInt8) :
    (∃ h, startsSmb ((w ++ rest).drop h) ∧ (∀ j < h, ¬startsSmb ((w ++ rest).drop j)) ∧
      run smbByte ⟨7, x64⟩ rest = .stop (some (headerLen ((w ++ rest).drop h) - 3)) (h + 1)) ∨
    (∃ s, run smbByte ⟨7, x64⟩ rest = .more s) ∧ ∀ j, ¬startsSmb ((w ++ rest).drop j) := by
  induction rest generalizing x64 w with
  | nil =>
    refine Or.inr ⟨⟨_, rfl⟩, fun j => not_startsSmb_of_length ?_⟩
    rw [List.length_drop, List.append_nil]
    omega
  | cons b rest ih =>
    obtain ⟨b₀, b₁, b₂, b₃, i₀, i₁, i₂, rfl⟩ : ∃ b₀ b₁ b₂ b₃ i₀ i₁ i₂, w = [b₀, b₁, b₂, b₃, i₀, i₁, i₂] := by
      match w, hw with
      | [b₀, b₁, b₂, b₃, i₀, i₁, i₂], _ => exact ⟨b₀, b₁, b₂, b₃, i₀, i₁, i₂, rfl⟩
    have hstep := smbByte_seven (b := b) hx rest
    by_cases hsmb : startsSmb ([b₀, b₁, b₂, b₃, i₀, i₁, i₂] ++ b :: rest)
    · rw [if_pos hsmb] at hstep
      exact Or.inl ⟨0, hsmb, fun j hj => absurd hj (Nat.not_lt_zero j), run_cons_inr _ hstep⟩
    · rw [if_neg hsmb] at hstep
      have hx' : Holds (pafShift x64 b) [b₁, b₂, b₃, i₀, i₁, i₂, b] := (hx.shift (by simp) b).tail
      have hdrop : ∀ j, ([b₀, b₁, b₂, b₃, i₀, i₁, i₂] ++ b :: rest).drop (j + 1) =
          ([b₁, b₂, b₃, i₀, i₁, i₂, b] ++ rest).drop j := fun j => rfl
      rw [run_cons_inl _ hstep]
      rcases ih (by simp) hx' with ⟨h, hh, hfirst, hrun⟩ | ⟨⟨s, hrun⟩, hnone⟩
      · refine Or.inl ⟨h + 1, by rw [hdrop]; exact hh, fun j hj => ?_, by rw [hrun, hdrop]; rfl⟩
        cases j with
        | zero => exact hsmb
        | succ j =>
          rw [hdrop]
          exact hfirst j (by omega)
      · refine Or.inr ⟨⟨s, by rw [hrun]; rfl⟩, fun j => ?_⟩
        cases j with
        | zero => exact hsmb
        | succ j =>
          rw [hdrop]
          exact hnone j

theorem startsHeader_of_startsSmb {data : List UInt8} (h : startsSmb data) : startsHeader false data := by
  match data with
  | [] | [_] | [_, _] | [_, _, _] | [_, _, _, _] | [_, _, _, _, _] | [_, _, _, _, _, _]
  | [_, _, _, _, _, _, _] => simp [startsSmb] at h
  | b₀ :: b₁ :: _ :: _ :: _ :: _ :: _ :: _ :: _ =>
    simp only [startsSmb, validHeader, Bool.and_eq_true, if_true, decide_eq_true_eq] at h
    obtain ⟨⟨⟨⟨⟨htype, hbit⟩, -⟩, -⟩, -⟩, -⟩ := h
    simp [startsHeader, validHeader, htype, hbit, nbssTypes]

theorem not_firstSmb_of_length {data : List UInt8} (h : data.length ≤ 8) (j : ℕ) : ¬FirstSmb data j := by
  rintro ⟨hj, hsmb, -⟩
  exact not_startsSmb_of_length (by rw [List.length_drop]; omega) hsmb

/-- The first four bytes behind a flush point. -/
theorem run_four (b₀ b₁ b₂ b₃ : UInt8) (rest : List UInt8) :
    ∃ x64, Holds x64 [b₀, b₁, b₂, b₃] ∧ run smbByte smbPaf.start (b₀ :: b₁ :: b₂ :: b₃ :: rest) =
      if validHeader false b₀ b₁ then .stop (some (headerLen (b₀ :: b₁ :: b₂ :: b₃ :: rest) + 1)) 4
      else (run smbByte ⟨4, x64⟩ rest).shift 4 := by
  have h₃ : Holds (pafShift (pafShift (pafShift b₀.toUInt64 b₁) b₂) b₃) [b₀, b₁, b₂, b₃] :=
    (((holds_first b₀).shift (by simp) b₁).shift (by simp) b₂).shift (by simp) b₃
  refine ⟨_, h₃, ?_⟩
  have hfirst : smbByte smbPaf.start b₀ = .inl ⟨1, b₀.toUInt64⟩ := rfl
  have hsecond : smbByte ⟨1, b₀.toUInt64⟩ b₁ = .inl ⟨2, pafShift b₀.toUInt64 b₁⟩ := rfl
  have hthird : smbByte ⟨2, pafShift b₀.toUInt64 b₁⟩ b₂ = .inl ⟨3, pafShift (pafShift b₀.toUInt64 b₁) b₂⟩ := rfl
  rw [run_cons_inl _ hfirst, run_cons_inl _ hsecond, run_cons_inl _ hthird]
  have hlen : headerLen (b₀ :: b₁ :: b₂ :: b₃ :: rest) = b₁.toNat % 2 * 65536 + b₂.toNat * 256 + b₃.toNat := rfl
  rw [hlen]
  have hstep : smbByte ⟨3, pafShift (pafShift b₀.toUInt64 b₁) b₂⟩ b₃ =
      if validHeader false b₀ b₁ then .inr (some ((b₁.toNat % 2 * 65536 + b₂.toNat * 256 + b₃.toNat : ℕ) + 4 - 3))
      else .inl ⟨4, pafShift (pafShift (pafShift b₀.toUInt64 b₁) b₂) b₃⟩ := by
    rw [smbByte, if_neg (by simp), if_pos rfl]
    simp only [valid_eq h₃.low, nbssLen_eq h₃.low]
  by_cases hvalid : validHeader false b₀ b₁ = true
  · rw [if_pos hvalid] at hstep ⊢
    rw [run_cons_inr _ hstep]
    generalize b₁.toNat % 2 * 65536 + b₂.toNat * 256 + b₃.toNat = len
    rw [show (len : ℤ) + 4 - 3 = len + 1 by ring]
    rfl
  · rw [if_neg hvalid] at hstep ⊢
    rw [run_cons_inl _ hstep, Outcome.shift_shift, Outcome.shift_shift, Outcome.shift_shift]

/-- The callback behind a flush point: it stops at the end of a header in front, or else of the first SMB
header. -/
theorem run_start (data : List UInt8) :
    (startsHeader false data ∧ run smbByte smbPaf.start data = .stop (some (headerLen data + 1)) 4) ∨
    (¬startsHeader false data ∧ ∃ h, FirstSmb data h ∧
      run smbByte smbPaf.start data = .stop (some (headerLen (data.drop h) - 3)) (h + 8)) ∨
    (¬startsHeader false data ∧ (∀ h, ¬FirstSmb data h) ∧ ∃ s, run smbByte smbPaf.start data = .more s) := by
  match data with
  | [] => exact Or.inr (Or.inr ⟨by simp [startsHeader], not_firstSmb_of_length (by simp), _, rfl⟩)
  | [_] => exact Or.inr (Or.inr ⟨by simp [startsHeader], not_firstSmb_of_length (by simp), _, rfl⟩)
  | [_, _] => exact Or.inr (Or.inr ⟨by simp [startsHeader], not_firstSmb_of_length (by simp), _, rfl⟩)
  | [_, _, _] => exact Or.inr (Or.inr ⟨by simp [startsHeader], not_firstSmb_of_length (by simp), _, rfl⟩)
  | b₀ :: b₁ :: b₂ :: b₃ :: rest =>
    obtain ⟨x64, hx, hrun⟩ := run_four b₀ b₁ b₂ b₃ rest
    by_cases hvalid : validHeader false b₀ b₁ = true
    · rw [if_pos hvalid] at hrun
      exact Or.inl ⟨hvalid, hrun⟩
    · rw [if_neg hvalid] at hrun
      refine Or.inr ?_
      match rest with
      | [] => exact Or.inr ⟨hvalid, not_firstSmb_of_length (by simp), _, hrun⟩
      | [_] => exact Or.inr ⟨hvalid, not_firstSmb_of_length (by simp), _, hrun⟩
      | [_, _] => exact Or.inr ⟨hvalid, not_firstSmb_of_length (by simp), _, hrun⟩
      | i₀ :: i₁ :: i₂ :: rest =>
        have hx' : Holds (pafShift (pafShift (pafShift x64 i₀) i₁) i₂) [b₀, b₁, b₂, b₃, i₀, i₁, i₂] :=
          ((hx.shift (by simp) i₀).shift (by simp) i₁).shift (by simp) i₂
        have hthree : run smbByte ⟨4, x64⟩ (i₀ :: i₁ :: i₂ :: rest) =
            (run smbByte ⟨7, pafShift (pafShift (pafShift x64 i₀) i₁) i₂⟩ rest).shift 3 := by
          have hfour : smbByte ⟨4, x64⟩ i₀ = .inl ⟨5, pafShift x64 i₀⟩ := rfl
          have hfive : smbByte ⟨5, pafShift x64 i₀⟩ i₁ = .inl ⟨6, pafShift (pafShift x64 i₀) i₁⟩ := rfl
          have hsix : smbByte ⟨6, pafShift (pafShift x64 i₀) i₁⟩ i₂ =
              .inl ⟨7, pafShift (pafShift (pafShift x64 i₀) i₁) i₂⟩ := rfl
          rw [run_cons_inl _ hfour, run_cons_inl _ hfive, run_cons_inl _ hsix, Outcome.shift_shift,
            Outcome.shift_shift]
        rw [hthree, Outcome.shift_shift] at hrun
        have hfront : ¬startsSmb (b₀ :: b₁ :: b₂ :: b₃ :: i₀ :: i₁ :: i₂ :: rest) := fun h =>
          hvalid (startsHeader_of_startsSmb h)
        rcases run_resync rfl hx' rest with ⟨h, hh, hfirst, hstop⟩ | ⟨⟨s, hmore⟩, hnone⟩
        · refine Or.inl ⟨hvalid, h, ⟨?_, hh, fun j _ hj => hfirst j hj⟩, ?_⟩
          · rcases Nat.eq_zero_or_pos h with rfl | hpos
            · exact absurd hh hfront
            · exact hpos
          · rw [hrun, hstop]
            simp only [Outcome.shift_stop]
            rfl
        · refine Or.inr ⟨hvalid, fun h hh => hnone h hh.2.1, s, ?_⟩
          rw [hrun, hmore]
          rfl

/-! ## NetBIOS messages in segments -/

open Scanner Feed

theorem FirstSmb.unique {data : List UInt8} {h h' : ℕ} (hh : FirstSmb data h) (hh' : FirstSmb data h') : h = h' := by
  rcases Nat.lt_trichotomy h h' with hlt | rfl | hlt
  · exact absurd hh.2.1 (hh'.2.2 h hh.1 hlt)
  · rfl
  · exact absurd hh'.2.1 (hh.2.2 h' hh'.1 hlt)

/-- The messages of a stream are where the callback stops, and what it announces. -/
theorem points_of_messages {q : ℕ} {data : List UInt8} {ms : List (ℕ × ℕ)} (h : Messages q data ms) :
    smbPaf.Points q data ms := by
  induction h with
  | @done q data hheader hsmb =>
    rcases run_start data with ⟨hyes, -⟩ | ⟨-, h, hh, -⟩ | ⟨-, -, s, hrun⟩
    · exact absurd hyes hheader
    · exact absurd hh (hsmb h)
    · exact .done fun d n hstop => by
        rw [show smbPaf.step = smbByte from rfl, hrun] at hstop
        cases hstop
  | @header q data ms hheader _ ih =>
    rcases run_start data with ⟨-, hrun⟩ | ⟨hno, -⟩ | ⟨hno, -⟩
    · exact .flush (n := 4) hrun (by push_cast; ring) ih
    · exact absurd hheader hno
    · exact absurd hheader hno
  | @smb q h data ms hnone hsmb _ ih =>
    rcases run_start data with ⟨hyes, -⟩ | ⟨-, h', hh', hrun⟩ | ⟨-, hno, -⟩
    · exact absurd hyes hnone
    · obtain rfl := hsmb.unique hh'
      exact .flush (n := h + 8) hrun (by push_cast; ring) ih
    · exact absurd hsmb (hno h)

theorem messages_of_points {q : ℕ} {data : List UInt8} {ms : List (ℕ × ℕ)} (h : smbPaf.Points q data ms) :
    Messages q data ms := by
  induction h with
  | @done q data hnone =>
    rcases run_start data with ⟨-, hrun⟩ | ⟨-, h, -, hrun⟩ | ⟨hno, hsmb, -⟩
    · exact absurd hrun (hnone _ _)
    · exact absurd hrun (hnone _ _)
    · exact .done hno hsmb
  | @flush q p n d data ms hstop hp _ ih =>
    change run smbByte smbPaf.start data = _ at hstop
    rcases run_start data with ⟨hyes, hrun⟩ | ⟨hno, h, hh, hrun⟩ | ⟨-, -, s, hrun⟩
    · rw [hrun] at hstop
      cases hstop
      obtain rfl : p = 4 + headerLen data := by
        push_cast at hp
        omega
      exact .header hyes ih
    · rw [hrun] at hstop
      cases hstop
      obtain rfl : p = h + 4 + headerLen (data.drop h) := by
        push_cast at hp
        omega
      exact .smb hno hh ih
    · rw [hrun] at hstop
      cases hstop

/-- In a stream in one piece the callback finds the messages. -/
theorem points_iff {q : ℕ} {data : List UInt8} {ms : List (ℕ × ℕ)} :
    smbPaf.Points q data ms ↔ Messages q data ms := ⟨messages_of_points, points_of_messages⟩

theorem advances : smbPaf.Advances := by
  intro data d n hstop
  change run smbByte smbPaf.start data = _ at hstop
  rcases run_start data with ⟨-, hrun⟩ | ⟨-, h, -, hrun⟩ | ⟨-, -, s, hrun⟩
  · rw [hrun] at hstop
    cases hstop
    push_cast
    omega
  · rw [hrun] at hstop
    cases hstop
    push_cast
    omega
  · rw [hrun] at hstop
    cases hstop

/-! ### Offsets -/

theorem nbssLen_lt (nbHdr : UInt32) : (nbssLen nbHdr).toNat < 2 ^ 17 := by
  have hbit : (nbHdr.toNat >>> 16) &&& 1 ≤ 1 := Nat.and_le_right
  have hhigh : ((nbHdr.toNat >>> 16) &&& 1) <<< 16 % 2 ^ 32 < 2 ^ 17 := by
    rw [Nat.shiftLeft_eq]
    omega
  have hlow : nbHdr.toNat &&& 0xffff < 2 ^ 17 := lt_of_le_of_lt Nat.and_le_right (by norm_num)
  exact Nat.or_lt_two_pow hhigh hlow

/-- What a byte can do. -/
theorem smbByte_cases (s : PafSmbState) (b : UInt8) :
    (∃ k x64, k ≠ 0 ∧ smbByte s b = .inl ⟨k, x64⟩) ∨
    ∃ nbHdr : UInt32, smbByte s b = .inr (some ((nbssLen nbHdr).toNat + 4 - 3)) ∨
      smbByte s b = .inr (some ((nbssLen nbHdr).toNat + 4 - 7)) := by
  simp only [smbByte]
  split_ifs
  all_goals first
    | exact Or.inr ⟨_, Or.inl rfl⟩
    | exact Or.inr ⟨_, Or.inr rfl⟩
    | exact Or.inl ⟨_, _, Nat.succ_ne_zero _, rfl⟩

/-- The displacement of a stop. -/
theorem displacement {s : PafSmbState} {b : UInt8} {d : ℤ} (h : smbByte s b = .inr (some d)) : d < 2 ^ 18 := by
  rcases smbByte_cases s b with ⟨k, x64, -, hb⟩ | ⟨nbHdr, hb⟩
  · rw [hb] at h
    cases h
  · have hlen : ((nbssLen nbHdr).toNat : ℤ) < 2 ^ 17 := by exact_mod_cast nbssLen_lt nbHdr
    rcases hb with hb | hb
    all_goals
      rw [hb] at h
      cases h
      omega

/-- No byte leads back to the first state. -/
theorem smbByte_ne_start (s : PafSmbState) (b : UInt8) : smbByte s b ≠ .inl smbPaf.start := by
  intro h
  rcases smbByte_cases s b with ⟨k, x64, hk, hb⟩ | ⟨nbHdr, hb | hb⟩
  · rw [hb] at h
    cases h
    exact hk rfl
  · rw [hb] at h
    cases h
  · rw [hb] at h
    cases h

/-- The callback finds the messages of the stream, and announces offsets of at least 1 that are not wrapped
around. -/
def Segmented (segs : List (List UInt8)) : Prop :=
  (∃ ms, Messages 0 segs.flatten ms ∧ smbPaf.flushPoints segs = ms.map Prod.snd) ∧
    ∀ c ∈ smbPaf.calls segs, ∀ d n, run smbByte c.s c.data = .stop (some d) n →
      ∃ fp, smbPaf.verdict c.s c.data = .flush fp ∧ (fp : ℤ) = n - 1 + d ∧ 1 ≤ fp

/-- A segment ends behind a message that is not found yet, or at its end. -/
def EndsBehind (segs : List (List UInt8)) : Prop :=
  ∃ ms, Messages 0 segs.flatten ms ∧ ∃ m ∈ ms, ∃ e, Boundary segs e ∧ m.2 ≤ e ∧ e ≤ m.1

/-- A call that stops announces the offset as an integer. -/
theorem verdict_of_stop {c : Call PafSmbState UInt8} {d : ℤ} {n : ℕ}
    (h : run smbByte c.s c.data = .stop (some d) n) (hpos : 1 ≤ (n : ℤ) - 1 + d) (hlt : (n : ℤ) - 1 + d < 2 ^ 32) :
    ∃ fp, smbPaf.verdict c.s c.data = .flush fp ∧ (fp : ℤ) = n - 1 + d ∧ 1 ≤ fp := by
  refine ⟨((n : ℤ) - 1 + d).toNat, ?_, by omega, by omega⟩
  rw [Callback.verdict, show run smbPaf.step c.s c.data = _ from h]
  simp only [CInt.u32]
  congr 1
  omega

/-- Where no segment ends behind a message that is not found yet, every call announces an offset of at least 1. -/
theorem offset_of_placed {segs : List (List UInt8)} (hlen : ∀ seg ∈ segs, seg.length ≤ 2 ^ 31 - 1)
    {ms : List (ℕ × ℕ)} (hends : ∀ m ∈ ms, ∀ e, Boundary segs e → ¬(m.2 ≤ e ∧ e ≤ m.1))
    {c : Call PafSmbState UInt8} (hc : c ∈ smbPaf.calls segs) (hplaced : smbPaf.Placed ms c) {d : ℤ} {n : ℕ}
    (hrun : run smbByte c.s c.data = .stop (some d) n) : 1 ≤ (n : ℤ) - 1 + d ∧ (n : ℤ) - 1 + d < 2 ^ 32 := by
  obtain ⟨hn, hle⟩ := length_of_stop hrun
  have hdata := Callback.length_data_le hlen hc
  obtain ⟨s, b, hstep⟩ := exists_of_stop hrun
  have hd := displacement hstep
  refine ⟨?_, by omega⟩
  obtain ⟨pre, q, ms', later, hat, hsuffix⟩ := hplaced
  have hstop := hat.run_of_stop hrun
  have hadv := advances _ _ _ hstop
  obtain ⟨p, hp⟩ : ∃ p : ℕ, (p : ℤ) = ((n + pre.length : ℕ) : ℤ) - 1 + d := ⟨_, Int.toNat_of_nonneg (by omega)⟩
  obtain ⟨ms'', rfl, -⟩ := hat.points.eq_cons hstop hp
  have hpos := hat.pos_eq
  by_contra hback
  by_cases hpre : pre = []
  · subst hpre
    simp only [List.length_nil, Nat.add_zero] at hadv
    omega
  · have hs : c.s ≠ smbPaf.start := by
      intro hs
      obtain ⟨t, b, htb⟩ := exists_step_of_more hpre hat.reached
      exact smbByte_ne_start t b (by rw [← hs]; exact htb)
    refine hends _ (hsuffix.mem List.mem_cons_self) c.pos (Callback.boundary_of_ne_start hc hs) ⟨?_, ?_⟩
    · push_cast at hp
      show q + p ≤ c.pos
      omega
    · show c.pos ≤ q + (n + pre.length - 1)
      omega

/-- **NetBIOS messages**: for every stream in segments the callback finds the messages, and its offsets are at
least 1, if and only if no segment ends behind a message that is not found yet. -/
theorem smb_segmented_iff (segs : List (List UInt8)) (hlen : ∀ seg ∈ segs, seg.length ≤ 2 ^ 31 - 1) :
    Segmented segs ↔ ¬EndsBehind segs := by
  constructor
  · rintro ⟨-, hoffsets⟩ ⟨ms, hms, ⟨i, p⟩, hm, e, he, hle, hle'⟩
    have hexact : ∀ c ∈ smbPaf.calls segs, smbPaf.Exact c := by
      intro c hc d n hrun
      obtain ⟨fp, -, hfp, hone⟩ := hoffsets c hc d n hrun
      obtain ⟨hn, hle⟩ := length_of_stop hrun
      have hdata := Callback.length_data_le hlen hc
      obtain ⟨s, b, hstep⟩ := exists_of_stop hrun
      have hd := displacement hstep
      omega
    have hevents := (Callback.events_eq advances (points_of_messages hms) fun c hc _ => hexact c hc).1
    rw [← hevents, Callback.mem_events] at hm
    obtain ⟨c, hc, ⟨i', fp⟩, hann, hi, hp⟩ := hm
    obtain ⟨d, n, hrun, rfl, hfp, hn, hlen'⟩ := Callback.run_of_announced hann
    obtain ⟨fp', -, hfp', hone⟩ := hoffsets c hc d n hrun
    have : fp = fp' := by
      have := (hexact c hc d n hrun).2
      rw [hfp, ← hfp', CInt.u32_of_eq rfl (by omega)]
    simp only at hi hp hle hle'
    exact Callback.not_boundary_inside hc (by omega) (by omega) he
  · intro hends
    obtain ⟨ms, hpoints⟩ := Callback.exists_points advances 0 segs.flatten
    have hms := messages_of_points hpoints
    have hnone : ∀ m ∈ ms, ∀ e, Boundary segs e → ¬(m.2 ≤ e ∧ e ≤ m.1) :=
      fun m hm e he hle => hends ⟨ms, hms, m, hm, e, he, hle⟩
    obtain ⟨hevents, hplaced⟩ := Callback.events_eq advances hpoints fun c hc hplaced d n hrun => by
      have := offset_of_placed hlen hnone hc hplaced hrun
      omega
    refine ⟨⟨ms, hms, by rw [Callback.flushPoints, hevents]⟩, fun c hc d n hrun => ?_⟩
    obtain ⟨hpos, hlt⟩ := offset_of_placed hlen hnone hc (hplaced c hc) hrun
    exact verdict_of_stop hrun hpos hlt

/-- Four bytes of junk, and a session message of length 0 with an SMB id, whose last byte comes later. -/
def lateId : List (List UInt8) := [[0xff, 0xff, 0xff, 0xff, 0, 0, 0, 0, 0xff, 0x53, 0x4d], [0x42]]

theorem smb_segmented_iff_lateId : Segmented [lateId.flatten] ↔ ¬EndsBehind [lateId.flatten] :=
  smb_segmented_iff [lateId.flatten] (by decide)

/-- The last byte of the id is the first one of a call, and the offset is -3, wrapped around. -/
theorem late_id_wraps : ¬∀ segs : List (List UInt8), (∀ seg ∈ segs, seg ≠ []) → Segmented segs := by
  intro h
  obtain ⟨-, hoffsets⟩ := h lateId (by decide)
  have hcall : (⟨11, ⟨7, 0xff00000000ff534d⟩, [0x42]⟩ : Call PafSmbState UInt8) ∈ smbPaf.calls lateId := by decide
  have hstep : smbByte ⟨7, 0xff00000000ff534d⟩ 0x42 = .inr (some (-3)) := by decide
  obtain ⟨fp, -, hfp, -⟩ := hoffsets _ hcall (-3) 1 (run_cons_inr _ hstep)
  omega

end Snort.Dce2
