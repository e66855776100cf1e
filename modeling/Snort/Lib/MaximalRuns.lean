import Mathlib.Tactic

/-!
# Maximal runs of a predicate

The numbers of an interval that satisfy a predicate, as a list of pairs: the first and the last number of each maximal
run.

* `runs`: a scan from left to right, with the first number of a run that is still open;
* **`mem_runs_iff`**: the runs cover the predicate, and nothing else; `pairwise_runs`: they are in order.
-/

namespace MaximalRuns

variable {f g : ℕ → Bool} {left i p : ℕ} {first : Option ℕ} {r : ℕ × ℕ}

/-- The runs in `left` numbers from `i` on, behind an open run. -/
def runs (f : ℕ → Bool) : (left i : ℕ) → (first : Option ℕ) → List (ℕ × ℕ)
  | 0, _, none => []
  | 0, i, some a => [(a, i - 1)]
  | left + 1, i, none => if f i then runs f left (i + 1) (some i) else runs f left (i + 1) none
  | left + 1, i, some a => if f i then runs f left (i + 1) (some a) else (a, i - 1) :: runs f left (i + 1) none

/-- The first number of an open run lies before the scan. -/
def Open (first : Option ℕ) (i : ℕ) : Prop := ∀ a ∈ first, a < i

theorem open_none : Open none i := by simp [Open]

theorem Open.succ (h : Open first i) : Open first (i + 1) := fun a ha => (h a ha).trans (Nat.lt_succ_self i)

theorem open_some : Open (some i) (i + 1) := by simp [Open]

theorem bounds_of_mem (hopen : Open first i) (h : r ∈ runs f left i first) : r.1 ≤ r.2 ∧ r.2 < i + left := by
  induction left generalizing i first with
  | zero =>
    cases first with
    | none => simp [runs] at h
    | some a =>
      have := hopen a rfl
      obtain rfl : r = (a, i - 1) := by simpa [runs] using h
      simp only
      omega
  | succ left ih =>
    cases first with
    | none =>
      simp only [runs] at h
      split at h
      · have := ih open_some h
        omega
      · have := ih open_none h
        omega
    | some a =>
      have := hopen a rfl
      simp only [runs] at h
      split at h
      · have := ih hopen.succ h
        omega
      · rcases List.mem_cons.1 h with rfl | h
        · simp only
          omega
        · have := ih open_none h
          omega

/-- The runs cover the open run and the numbers of the interval that satisfy the predicate. -/
theorem mem_runs_iff (hopen : Open first i) :
    (∃ r ∈ runs f left i first, r.1 ≤ p ∧ p ≤ r.2) ↔
      (∃ a ∈ first, a ≤ p ∧ p < i) ∨ i ≤ p ∧ p < i + left ∧ f p = true := by
  induction left generalizing i first with
  | zero =>
    have hempty : ¬(i ≤ p ∧ p < i + 0 ∧ f p = true) := fun h => by omega
    cases first with
    | none => simpa [runs] using hempty
    | some a =>
      have := hopen a rfl
      simp only [runs, List.mem_singleton, exists_eq_left, Option.mem_def, Option.some.injEq, exists_eq_left',
        hempty, or_false]
      omega
  | succ left ih =>
    -- the number at `i` is in the interval if and only if it satisfies the predicate
    have hsplit : (i ≤ p ∧ p < i + (left + 1) ∧ f p = true) ↔
        (p = i ∧ f i = true) ∨ i + 1 ≤ p ∧ p < i + 1 + left ∧ f p = true := by
      constructor
      · rintro ⟨hle, hlt, hf⟩
        rcases Nat.eq_or_lt_of_le hle with rfl | hlt'
        · exact .inl ⟨rfl, hf⟩
        · exact .inr ⟨hlt', by omega, hf⟩
      · rintro (⟨rfl, hf⟩ | ⟨hle, hlt, hf⟩)
        · exact ⟨le_rfl, by omega, hf⟩
        · exact ⟨by omega, by omega, hf⟩
    rw [hsplit]
    cases first with
    | none =>
      simp only [runs]
      by_cases hi : f i = true
      · rw [if_pos hi, ih open_some]
        simp only [Option.mem_def, Option.some.injEq, exists_eq_left', reduceCtorEq, false_and, exists_false,
          false_or, hi, and_true]
        refine or_congr_left ?_
        omega
      · rw [if_neg hi, ih open_none]
        simp [hi]
    | some a =>
      have := hopen a rfl
      simp only [runs]
      by_cases hi : f i = true
      · rw [if_pos hi, ih hopen.succ]
        simp only [Option.mem_def, Option.some.injEq, exists_eq_left', hi, and_true, ← or_assoc]
        refine or_congr_left ?_
        omega
      · rw [if_neg hi]
        simp only [List.mem_cons, exists_eq_or_imp, ih open_none, Option.mem_def, reduceCtorEq, false_and,
          exists_false, false_or, Option.some.injEq, exists_eq_left', hi, and_false]
        refine or_congr_left ?_
        omega

/-- A run begins at the open run or in the interval. -/
theorem first_of_mem (h : r ∈ runs f left i first) : (∃ a ∈ first, r.1 = a) ∨ i ≤ r.1 := by
  induction left generalizing i first with
  | zero =>
    cases first with
    | none => simp [runs] at h
    | some a =>
      obtain rfl : r = (a, i - 1) := by simpa [runs] using h
      exact .inl ⟨a, rfl, rfl⟩
  | succ left ih =>
    cases first with
    | none =>
      simp only [runs] at h
      refine .inr ?_
      split at h
      · rcases ih h with ⟨a, ha, hr⟩ | hr
        · obtain rfl : i = a := by simpa using ha
          exact hr.ge
        · omega
      · rcases ih h with ⟨a, ha, -⟩ | hr
        · cases ha
        · omega
    | some a =>
      simp only [runs] at h
      split at h
      · rcases ih h with hr | hr
        · exact .inl hr
        · exact .inr (by omega)
      · rcases List.mem_cons.1 h with rfl | h
        · exact .inl ⟨a, rfl, rfl⟩
        · rcases ih h with ⟨a, ha, -⟩ | hr
          · cases ha
          · exact .inr (by omega)

/-- The runs are in order. -/
theorem pairwise_runs (hopen : Open first i) : (runs f left i first).Pairwise fun r s => r.1 < s.1 := by
  induction left generalizing i first with
  | zero => cases first <;> simp [runs]
  | succ left ih =>
    cases first with
    | none =>
      simp only [runs]
      split
      · exact ih open_some
      · exact ih open_none
    | some a =>
      simp only [runs]
      split
      · exact ih hopen.succ
      · refine List.pairwise_cons.2 ⟨fun s hs => ?_, ih open_none⟩
        have := hopen a rfl
        rcases first_of_mem hs with ⟨b, hb, -⟩ | hle
        · cases hb
        · simp only
          omega

theorem runs_congr (h : ∀ p, i ≤ p → p < i + left → f p = g p) : runs f left i first = runs g left i first := by
  induction left generalizing i first with
  | zero => cases first <;> rfl
  | succ left ih =>
    have hi := h i le_rfl (by omega)
    have hrest : ∀ first, runs f left (i + 1) first = runs g left (i + 1) first :=
      fun first => ih fun p hle hlt => h p (by omega) (by omega)
    cases first <;> simp [runs, hi, hrest]

/-- The runs of an interval, none being open. -/
theorem mem_runs_none_iff (f : ℕ → Bool) (left i p : ℕ) :
    (∃ r ∈ runs f left i none, r.1 ≤ p ∧ p ≤ r.2) ↔ i ≤ p ∧ p < i + left ∧ f p = true := by
  simp [mem_runs_iff open_none]

end MaximalRuns
