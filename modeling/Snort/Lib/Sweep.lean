import Mathlib.Tactic

/-!
# Sweeping over intervals

A list of intervals `[start, stop)` is gone through in the order of the list, with a position that only
moves forward: what lies in front of an interval is left alone, what is left of the interval belongs to
it, and an interval that ends behind the position is passed over.

* `decider`: the interval that a position belongs to, if any: of those that reach beyond the position
  the first one decides;
* **`decider_of_pairwise`**: in a list that is sorted by `start` every position that is covered belongs
  to an interval.
-/

namespace Sweep

variable {α : Type*} (start stop : α → ℕ)

/-- `k` lies in the interval of `e`. -/
def Covers (e : α) (k : ℕ) : Prop := start e ≤ k ∧ k < stop e

/-- The interval that `k` belongs to. -/
def decider (l : List α) (k : ℕ) : Option α :=
  (l.find? fun e => k < stop e).filter fun e => start e ≤ k

variable {start stop}
variable {l : List α} {e : α} {k : ℕ}

@[simp] theorem decider_nil (k : ℕ) : decider start stop [] k = none := rfl

theorem decider_cons_of_le (h : stop e ≤ k) : decider start stop (e :: l) k = decider start stop l k := by
  simp [decider, Nat.not_lt.2 h]

theorem decider_cons_of_covers (h : Covers start stop e k) : decider start stop (e :: l) k = some e := by
  simp [decider, h.1, h.2]

theorem decider_cons_of_lt (h : k < start e) (h' : k < stop e) :
    decider start stop (e :: l) k = none := by
  simp [decider, h, h']

/-- The intervals that end in front of `k` play no part. -/
theorem decider_append_of_le {l₁ l₂ : List α} (h : ∀ e ∈ l₁, stop e ≤ k) :
    decider start stop (l₁ ++ l₂) k = decider start stop l₂ k := by
  induction l₁ with
  | nil => rfl
  | cons e l₁ ih =>
    rw [List.cons_append, decider_cons_of_le (h e List.mem_cons_self),
      ih fun e he => h e (List.mem_cons_of_mem _ he)]

theorem mem_of_decider (h : decider start stop l k = some e) : e ∈ l ∧ Covers start stop e k := by
  rw [decider, Option.filter_eq_some_iff] at h
  obtain ⟨hfind, hstart⟩ := h
  have hstop := List.find?_some hfind
  exact ⟨List.mem_of_find?_eq_some hfind, by simpa using hstart, by simpa using hstop⟩

theorem decider_eq_none (h : ∀ e ∈ l, ¬Covers start stop e k) : decider start stop l k = none := by
  cases hd : decider start stop l k with
  | none => rfl
  | some e =>
    obtain ⟨hmem, hcov⟩ := mem_of_decider hd
    exact absurd hcov (h e hmem)

/-- **What is covered belongs to an interval**, if the list is sorted. -/
theorem decider_of_pairwise (hl : l.Pairwise fun e f => start e ≤ start f) (he : e ∈ l)
    (hk : Covers start stop e k) : ∃ f, decider start stop l k = some f := by
  induction l with
  | nil => exact absurd he (by simp)
  | cons f l ih =>
    obtain ⟨hf, hl⟩ := List.pairwise_cons.1 hl
    by_cases hstop : stop f ≤ k
    · rw [decider_cons_of_le hstop]
      rcases List.mem_cons.1 he with rfl | he
      · exact absurd hk.2 (by omega)
      · exact ih hl he
    · refine ⟨f, decider_cons_of_covers ⟨?_, by omega⟩⟩
      rcases List.mem_cons.1 he with rfl | he
      · exact hk.1
      · exact (hf e he).trans hk.1

end Sweep
