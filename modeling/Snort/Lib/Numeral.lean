import Mathlib.Tactic

/-!
# Numbers read into a register

A number is read digit by digit, in some base, into a register that holds values below a modulus.  What does not fit
wraps around; the reader gives up where the register is not greater than it was before, unless it was zero.

* `value`: the exact number that some digits spell;
* `accumulate`: the reader; `Drops`: the places where it gives up;
* **`accumulate_exact_iff`**: what is read is exact if and only if the number fits, or the reader gives up.
-/

namespace Numeral

variable {base modulus : ℕ}

/-- The number that some digits spell. -/
def value (base : ℕ) (ds : List ℕ) : ℕ := ds.foldl (fun v d => base * v + d) 0

@[simp] theorem value_nil : value base [] = 0 := rfl

@[simp] theorem value_concat (ds : List ℕ) (d : ℕ) : value base (ds ++ [d]) = base * value base ds + d := by
  simp [value]

theorem value_append (ds es : List ℕ) :
    value base (ds ++ es) = value base ds * base ^ es.length + value base es := by
  induction es using List.reverseRecOn with
  | nil => simp
  | append_singleton es e ih =>
    rw [← List.append_assoc, value_concat, ih, value_concat, List.length_append, List.length_singleton, Nat.pow_succ]
    ring

/-- A number has a size by its digits. -/
theorem value_lt {ds : List ℕ} (h : ∀ d ∈ ds, d < base) : value base ds < base ^ ds.length := by
  induction ds using List.reverseRecOn with
  | nil => simp
  | append_singleton ds d ih =>
    have hd : d < base := h d (by simp)
    have hds : value base ds + 1 ≤ base ^ ds.length := ih fun e he => h e (by simp [he])
    rw [value_concat, List.length_append, List.length_singleton, Nat.pow_succ]
    calc base * value base ds + d < base * value base ds + base := by omega
      _ = (value base ds + 1) * base := by ring
      _ ≤ base ^ ds.length * base := Nat.mul_le_mul_right _ hds

/-- The reader, from what the register holds. -/
def accumulate (base modulus : ℕ) : ℕ → List ℕ → Option ℕ
  | s, [] => some s
  | s, d :: ds =>
    let s' := (base * s + d) % modulus
    if s ≠ 0 ∧ s' ≤ s then none else accumulate base modulus s' ds

/-- Behind the digit at `i` the register is not greater than before. -/
def DropsAt (base modulus : ℕ) (ds : List ℕ) (i : ℕ) : Prop :=
  value base (ds.take i) % modulus ≠ 0 ∧
    value base (ds.take (i + 1)) % modulus ≤ value base (ds.take i) % modulus

instance (ds : List ℕ) (i : ℕ) : Decidable (DropsAt base modulus ds i) := inferInstanceAs (Decidable (_ ∧ _))

/-- The register is seen to wrap around. -/
def Drops (base modulus : ℕ) (ds : List ℕ) : Prop := ∃ i < ds.length, DropsAt base modulus ds i

instance (ds : List ℕ) : Decidable (Drops base modulus ds) := inferInstanceAs (Decidable (∃ i < _, _))

/-- What the register holds behind some digits. -/
theorem register_succ (v d : ℕ) : (base * (v % modulus) + d) % modulus = (base * v + d) % modulus := by
  conv_rhs => rw [Nat.add_mod, Nat.mul_mod]
  conv_lhs => rw [Nat.add_mod, Nat.mul_mod, Nat.mod_mod]

theorem accumulate_append (ds es : List ℕ) :
    accumulate base modulus (value base ds % modulus) es =
      if ∃ i < es.length, DropsAt base modulus (ds ++ es) (ds.length + i) then none
      else some (value base (ds ++ es) % modulus) := by
  induction es generalizing ds with
  | nil => simp [accumulate]
  | cons e es ih =>
    have hthis : DropsAt base modulus (ds ++ e :: es) ds.length ↔
        value base ds % modulus ≠ 0 ∧ (base * value base ds + e) % modulus ≤ value base ds % modulus := by
      rw [DropsAt, List.take_left, show ds ++ e :: es = (ds ++ [e]) ++ es by simp,
        List.take_left' (by simp), value_concat]
    have hsplit : (∃ i < (e :: es).length, DropsAt base modulus (ds ++ e :: es) (ds.length + i)) ↔
        DropsAt base modulus (ds ++ e :: es) ds.length ∨
          ∃ i < es.length, DropsAt base modulus ((ds ++ [e]) ++ es) ((ds ++ [e]).length + i) := by
      rw [List.length_cons, Nat.exists_lt_succ_left, Nat.add_zero]
      simp only [List.append_assoc, List.singleton_append, List.length_append, List.length_singleton,
        Nat.add_assoc, Nat.add_comm 1]
    simp only [hsplit, hthis, accumulate, register_succ]
    by_cases hdrop : value base ds % modulus ≠ 0 ∧
        (base * value base ds + e) % modulus ≤ value base ds % modulus
    · simp [hdrop]
    · have hih := ih (ds ++ [e])
      rw [value_concat] at hih
      rw [if_neg hdrop, hih]
      simp only [hdrop, false_or, List.append_assoc, List.singleton_append]

/-- The reader gives up where the register drops, and holds the number modulo the modulus where it does not. -/
theorem accumulate_eq (ds : List ℕ) :
    accumulate base modulus 0 ds =
      if Drops base modulus ds then none else some (value base ds % modulus) := by
  have h := @accumulate_append base modulus [] ds
  simp only [value_nil, Nat.zero_mod, List.nil_append, List.length_nil, Nat.zero_add] at h
  exact h

/-- **Exactness**: what is read is the number itself if and only if the number fits or the reader gives up. -/
theorem accumulate_exact_iff (hmod : 0 < modulus) (ds : List ℕ) :
    (∀ v, accumulate base modulus 0 ds = some v → v = value base ds) ↔
      value base ds < modulus ∨ Drops base modulus ds := by
  rw [accumulate_eq]
  by_cases hdrops : Drops base modulus ds
  · simp [hdrops]
  · simp only [hdrops, if_false, or_false, Option.some.injEq, forall_eq']
    constructor
    · intro h
      rw [← h]
      exact Nat.mod_lt _ hmod
    · exact Nat.mod_eq_of_lt

end Numeral
