import Snort.Email.Model

/-!
# The bytes that wait for the next packet

* `carry`: the undecoded bytes in front of the next packet;
* **`loadPrev_eq`**: a call finds them at the front of the encode buffer, and its packet behind them;
* `Along`: a condition on every call of a run.
-/

namespace Snort.Email

open Buffer

/-- The bytes that a call has left undecoded. -/
def carry (ds : EmailDecodeState) : List Byte :=
  match ds.prevEncodedBuf with
  | none => []
  | some off => readBuf ds.encodeBuf off ds.prevEncodedBytes

/-- There are no undecoded bytes without a place. -/
def Placed (ds : EmailDecodeState) : Prop := ds.prevEncodedBuf = none → ds.prevEncodedBytes = 0

theorem length_carry {ds : EmailDecodeState} (h : Placed ds) :
    (carry ds).length = ds.prevEncodedBytes := by
  unfold carry
  cases hb : ds.prevEncodedBuf with
  | none => exact (h hb).symm
  | some off => exact length_readBuf ..

theorem carry_of_zero {ds : EmailDecodeState} (h : ds.prevEncodedBytes = 0) : carry ds = [] := by
  unfold carry
  rw [h]
  cases ds.prevEncodedBuf <;> rfl

theorem placed_of_zero {ds : EmailDecodeState} (h : ds.prevEncodedBytes = 0) : Placed ds := fun _ => h

@[simp] theorem carry_reset (ds : EmailDecodeState) : carry (resetEmailDecodeState ds) = [] := rfl

theorem placed_reset (ds : EmailDecodeState) : Placed (resetEmailDecodeState ds) := fun _ => rfl

/-- **The front of the encode buffer in a call**: what is left from the last call, and the packet. -/
theorem loadPrev_eq {ds : EmailDecodeState} {avail : ℕ} (hp : Placed ds)
    (h : (carry ds).length ≤ avail) :
    ∃ buf : ℕ → Byte,
      loadPrev ds avail =
        ({ ds with prevEncodedBytes := 0, encodeBuf := buf }, (carry ds).length) ∧
      ∀ l : List Byte, readBuf (write buf (carry ds).length l) 0 (l.length + (carry ds).length) =
        carry ds ++ l := by
  rw [length_carry hp] at h ⊢
  unfold loadPrev carry
  rw [Nat.min_eq_left h]
  cases hb : ds.prevEncodedBuf with
  | none =>
    have h0 : ds.prevEncodedBytes = 0 := hp hb
    refine ⟨ds.encodeBuf, ?_, ?_⟩
    · rw [h0]
    · intro l
      rw [h0]
      exact readBuf_write ..
  | some off =>
    exact ⟨_, rfl, fun l => readBuf_copyDown_write ..⟩

/-- What a call leaves when it has read `bytesRead` of the `size` bytes in the encode buffer. -/
theorem carry_of_read {ds : EmailDecodeState} {size bytesRead : ℕ} {x : Option ℕ} {u rest : List Byte}
    (hbuf : readBuf ds.encodeBuf 0 size = u ++ rest) (hu : bytesRead = u.length)
    (hbytes : ds.prevEncodedBytes = if bytesRead < size then size - bytesRead else 0)
    (hplace : ds.prevEncodedBuf = if bytesRead < size then some bytesRead else x) :
    Placed ds ∧ carry ds = rest := by
  have hsize : size = u.length + rest.length := by
    rw [← List.length_append, ← hbuf, length_readBuf]
  by_cases h : bytesRead < size
  · rw [if_pos h] at hbytes hplace
    have hplaced : Placed ds := fun hn => absurd (hplace.symm.trans hn) (Option.some_ne_none _)
    refine ⟨hplaced, ?_⟩
    have hdrop := drop_readBuf ds.encodeBuf 0 h.le
    rw [hbuf, hu, List.drop_left' rfl, Nat.zero_add] at hdrop
    rw [carry, hplace, hbytes, hdrop, hu]
  · rw [if_neg h] at hbytes
    have hrest : rest = [] := List.length_eq_zero_iff.1 (by omega)
    rw [hrest]
    exact ⟨placed_of_zero hbytes, carry_of_zero hbytes⟩

/-- A condition on every call of a run, on its packet and the state before it. -/
def Along (decode : List Byte → EmailDecodeState → Bool × EmailDecodeState)
    (P : List Byte → EmailDecodeState → Prop) : List (List Byte) → EmailDecodeState → Prop
  | [], _ => True
  | p :: ps, ds => P p ds ∧ Along decode P ps (decode p ds).2

/-- A packet as the callers hand it on: not empty, and `MAX_BUF - 3` has room for it. -/
def Packet (p : List Byte) : Prop := p ≠ [] ∧ p.length < maxBuf - 3

instance (p : List Byte) : Decidable (Packet p) := inferInstanceAs (Decidable (_ ∧ _))

instance decidableAlong (decode : List Byte → EmailDecodeState → Bool × EmailDecodeState)
    (P : List Byte → EmailDecodeState → Prop) [∀ p ds, Decidable (P p ds)] :
    (ps : List (List Byte)) → (ds : EmailDecodeState) → Decidable (Along decode P ps ds)
  | [], _ => isTrue trivial
  | p :: ps, ds =>
    have := decidableAlong decode P ps (decode p ds).2
    inferInstanceAs (Decidable (_ ∧ _))

end Snort.Email
