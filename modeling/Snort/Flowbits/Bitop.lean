import Mathlib.Tactic

/-!
# Bit operations

* `Bitop`: a buffer of bytes, the first bit of which is the highest bit of the first byte;
* `boSetBit`, `boClearBit`, `boIsBitSet`: operations on one bit, and what they do to all bits;
* `Bitop.Sized`: a buffer of whole bytes, which can be set and cleared as a whole.
-/

namespace Snort.Flowbits

/-- `BITOP`. -/
structure Bitop where
  pucBitBuffer : ℕ → UInt8
  uiBitBufferSize : ℕ
  uiMaxBits : ℕ

/-- `boInitBITOP`, and `boInitStaticBITOP` with a buffer of zeros. -/
def boInitBITOP (iBytes : ℕ) : Bitop := ⟨fun _ => 0, iBytes, iBytes * 8⟩

/-- `boResetBITOP`. -/
def boResetBITOP (b : Bitop) : Bitop :=
  { b with pucBitBuffer := fun i => if i < b.uiBitBufferSize then 0 else b.pucBitBuffer i }

def boSetAllBits (b : Bitop) : Bitop :=
  { b with pucBitBuffer := fun i => if i < b.uiBitBufferSize then 0xff else b.pucBitBuffer i }

/-- The mask of a bit in its byte. -/
def bitMask (uiPos : ℕ) : UInt8 := 0x80 >>> UInt8.ofNat (uiPos % 8)

def boSetBit (b : Bitop) (uiPos : ℕ) : Bitop :=
  if b.uiMaxBits ≤ uiPos then b
  else
    let byte := b.pucBitBuffer (uiPos / 8) ||| bitMask uiPos
    { b with pucBitBuffer := Function.update b.pucBitBuffer (uiPos / 8) byte }

def boIsBitSet (b : Bitop) (uiPos : ℕ) : Bool :=
  if b.uiMaxBits ≤ uiPos then false
  else bitMask uiPos &&& b.pucBitBuffer (uiPos / 8) ≠ 0

def boClearBit (b : Bitop) (uiPos : ℕ) : Bitop :=
  if b.uiMaxBits ≤ uiPos then b
  else
    let byte := b.pucBitBuffer (uiPos / 8) &&& ~~~bitMask uiPos
    { b with pucBitBuffer := Function.update b.pucBitBuffer (uiPos / 8) byte }

/-! ### Bits of a byte -/

/-- A bit of a byte, from the highest one on. -/
def byteBit (x : UInt8) (k : ℕ) : Bool := x.toBitVec.getMsbD k

/-- A test with a mask, for all bytes. -/
theorem bitMask_and_ne_zero :
    ∀ (x : BitVec 8) (k : Fin 8), (bitMask k.1 &&& ⟨x⟩ ≠ 0) = (x.getMsbD k.1 = true) := by
  decide +kernel

theorem byteBit_bitMask_fin : ∀ k j : Fin 8, byteBit (bitMask k.1) j.1 = decide (j = k) := by
  decide

theorem bitMask_mod (p : ℕ) : bitMask (p % 8) = bitMask p := by
  unfold bitMask
  rw [Nat.mod_mod]

theorem bitMask_and_ne_zero_iff (x : UInt8) (p : ℕ) :
    bitMask p &&& x ≠ 0 ↔ byteBit x (p % 8) = true := by
  rw [← bitMask_mod]
  exact iff_of_eq (bitMask_and_ne_zero x.toBitVec ⟨p % 8, Nat.mod_lt _ (by norm_num)⟩)

theorem byteBit_bitMask (p q : ℕ) : byteBit (bitMask p) (q % 8) = decide (q % 8 = p % 8) := by
  have h := byteBit_bitMask_fin ⟨p % 8, Nat.mod_lt _ (by norm_num)⟩ ⟨q % 8, Nat.mod_lt _ (by norm_num)⟩
  rw [bitMask_mod] at h
  rw [h]
  simp only [Fin.mk.injEq]

theorem byteBit_or (x y : UInt8) (k : ℕ) : byteBit (x ||| y) k = (byteBit x k || byteBit y k) := by
  simp [byteBit]

theorem byteBit_and (x y : UInt8) (k : ℕ) : byteBit (x &&& y) k = (byteBit x k && byteBit y k) := by
  simp [byteBit]

theorem byteBit_not (x : UInt8) (p : ℕ) : byteBit (~~~x) (p % 8) = !byteBit x (p % 8) := by
  have hp : p % 8 < 8 := Nat.mod_lt _ (by norm_num)
  simp [byteBit, hp]

theorem byteBit_zero (k : ℕ) : byteBit 0 k = false := by
  simp [byteBit]

theorem byteBit_ones (p : ℕ) : byteBit 0xff (p % 8) = true := by
  have hall : ∀ k : Fin 8, byteBit 0xff k.1 = true := by decide
  exact hall ⟨p % 8, Nat.mod_lt _ (by norm_num)⟩

/-! ### Bits of a buffer -/

theorem boIsBitSet_iff (b : Bitop) (p : ℕ) :
    boIsBitSet b p = true ↔ p < b.uiMaxBits ∧ byteBit (b.pucBitBuffer (p / 8)) (p % 8) = true := by
  unfold boIsBitSet
  split
  · constructor
    · exact fun h => absurd h (by decide)
    · exact fun h => absurd h.1 (by omega)
  · rw [decide_eq_true_iff, bitMask_and_ne_zero_iff]
    constructor
    · exact fun h => ⟨by omega, h⟩
    · exact And.right

/-- A set bit. -/
theorem boIsBitSet_boSetBit (b : Bitop) (p q : ℕ) :
    boIsBitSet (boSetBit b p) q = true ↔ q = p ∧ p < b.uiMaxBits ∨ boIsBitSet b q = true := by
  unfold boSetBit
  split
  · simp
    omega
  · rw [boIsBitSet_iff, boIsBitSet_iff]
    by_cases hbyte : q / 8 = p / 8
    · simp only [hbyte, Function.update_self, byteBit_or, byteBit_bitMask, Bool.or_eq_true,
        decide_eq_true_iff]
      have hqp : q % 8 = p % 8 ↔ q = p := by omega
      rw [hqp]
      constructor
      · rintro ⟨hq, hbit | rfl⟩
        · exact .inr ⟨hq, hbit⟩
        · exact .inl ⟨rfl, hq⟩
      · rintro (⟨rfl, hp⟩ | ⟨hq, hbit⟩)
        · exact ⟨hp, .inr rfl⟩
        · exact ⟨hq, .inl hbit⟩
    · simp only [Function.update_of_ne hbyte]
      constructor
      · exact .inr
      · rintro (⟨rfl, -⟩ | h)
        · exact absurd rfl hbyte
        · exact h

/-- A cleared bit. -/
theorem boIsBitSet_boClearBit (b : Bitop) (p q : ℕ) :
    boIsBitSet (boClearBit b p) q = true ↔ q ≠ p ∧ boIsBitSet b q = true := by
  unfold boClearBit
  split
  · rw [boIsBitSet_iff]
    constructor
    · exact fun h => ⟨by omega, h⟩
    · exact And.right
  · rw [boIsBitSet_iff, boIsBitSet_iff]
    by_cases hbyte : q / 8 = p / 8
    · simp only [hbyte, Function.update_self, byteBit_and, byteBit_not, byteBit_bitMask, Bool.and_eq_true,
        Bool.not_eq_true', decide_eq_false_iff_not]
      have hqp : q % 8 = p % 8 ↔ q = p := by omega
      rw [hqp]
      constructor
      · rintro ⟨hq, hbit, hne⟩
        exact ⟨hne, hq, hbit⟩
      · rintro ⟨hne, hq, hbit⟩
        exact ⟨hq, hbit, hne⟩
    · have hne : q ≠ p := fun h => hbyte (by rw [h])
      simp only [Function.update_of_ne hbyte]
      exact ⟨fun h => ⟨hne, h⟩, And.right⟩

/-- A buffer has whole bytes. -/
structure Bitop.Sized (b : Bitop) (iBytes : ℕ) : Prop where
  size : b.uiBitBufferSize = iBytes
  maxBits : b.uiMaxBits = iBytes * 8

variable {b : Bitop} {iBytes : ℕ}

theorem sized_boInitBITOP (iBytes : ℕ) : (boInitBITOP iBytes).Sized iBytes := ⟨rfl, rfl⟩

theorem Bitop.Sized.boSetBit (h : b.Sized iBytes) (p : ℕ) : (boSetBit b p).Sized iBytes := by
  unfold Flowbits.boSetBit
  split
  · exact h
  · exact ⟨h.size, h.maxBits⟩

theorem Bitop.Sized.boClearBit (h : b.Sized iBytes) (p : ℕ) : (boClearBit b p).Sized iBytes := by
  unfold Flowbits.boClearBit
  split
  · exact h
  · exact ⟨h.size, h.maxBits⟩

theorem boIsBitSet_boInitBITOP (iBytes p : ℕ) : boIsBitSet (boInitBITOP iBytes) p = false := by
  rw [← Bool.not_eq_true, boIsBitSet_iff]
  rintro ⟨-, h⟩
  exact absurd ((byteBit_zero _).symm.trans h) (by decide)

theorem boIsBitSet_boResetBITOP (h : b.Sized iBytes) (p : ℕ) :
    boIsBitSet (boResetBITOP b) p = false := by
  rw [← Bool.not_eq_true, boIsBitSet_iff]
  rintro ⟨hp, hbit⟩
  have hmax := h.maxBits
  have hp' : p < b.uiMaxBits := hp
  have hsize : p / 8 < b.uiBitBufferSize := by
    rw [h.size]
    omega
  simp only [boResetBITOP, if_pos hsize, byteBit_zero] at hbit
  exact absurd hbit (by decide)

theorem boIsBitSet_boSetAllBits (h : b.Sized iBytes) (p : ℕ) :
    boIsBitSet (boSetAllBits b) p = true ↔ p < iBytes * 8 := by
  have hmax := h.maxBits
  have hsize : p < b.uiMaxBits → p / 8 < b.uiBitBufferSize := by
    rw [h.size]
    omega
  rw [boIsBitSet_iff]
  constructor
  · exact fun hbit => hmax ▸ hbit.1
  · intro hp
    have hp' : p < b.uiMaxBits := hmax.symm ▸ hp
    refine ⟨hp', ?_⟩
    simp only [boSetAllBits, if_pos (hsize hp'), byteBit_ones]

end Snort.Flowbits
