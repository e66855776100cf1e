import Mathlib.Tactic

/-!
# Loops that may fault

A loop takes turns: each one goes on in another state, comes to a result, or faults.

* `run`: at most some number of turns;
* `Turn.Keeps`: a turn that keeps an invariant and lets a measure decrease, or whose result is as it should be;
* **`run_returns`**: with such turns a run that is long enough comes to a result, without a fault;
* `run_of_le`: a longer run comes to the same result.
-/

namespace Loop

variable {σ ρ : Type*}

/-- What a turn comes to. -/
inductive Turn (σ ρ : Type*)
  | more (s : σ)
  | done (r : ρ)
  deriving DecidableEq

/-- What a run comes to. -/
inductive Outcome (ρ : Type*)
  | returns (r : ρ)
  | fault
  | running
  deriving DecidableEq

/-- At most `fuel` turns. -/
def run (step : σ → Option (Turn σ ρ)) : (fuel : ℕ) → σ → Outcome ρ
  | 0, _ => .running
  | fuel + 1, s =>
    match step s with
    | none => .fault
    | some (.done r) => .returns r
    | some (.more s') => run step fuel s'

variable {step : σ → Option (Turn σ ρ)} {inv : σ → Prop} {measure : σ → ℕ} {final : ρ → Prop}

/-- A turn goes on with the invariant and a smaller measure, or comes to a result as it should be. -/
def Turn.Keeps (inv : σ → Prop) (measure : σ → ℕ) (final : ρ → Prop) (bound : ℕ) : Turn σ ρ → Prop
  | .more s => inv s ∧ measure s < bound
  | .done r => final r

theorem Turn.Keeps.mono {bound bound' : ℕ} {t : Turn σ ρ} (h : t.Keeps inv measure final bound)
    (hle : bound ≤ bound') : t.Keeps inv measure final bound' := by
  cases t with
  | more s => exact ⟨h.1, h.2.trans_le hle⟩
  | done r => exact h

/-- **Termination**: a run with more fuel than the measure comes to a result, and not to a fault. -/
theorem run_returns (hstep : ∀ s, inv s → ∃ t, step s = some t ∧ t.Keeps inv measure final (measure s)) {s : σ}
    (hs : inv s) {fuel : ℕ} (hfuel : measure s < fuel) : ∃ r, run step fuel s = .returns r ∧ final r := by
  induction fuel generalizing s with
  | zero => exact absurd hfuel (Nat.not_lt_zero _)
  | succ fuel ih =>
    obtain ⟨t, ht, hkeeps⟩ := hstep s hs
    rw [run, ht]
    cases t with
    | more s' => exact ih hkeeps.1 (by have := hkeeps.2; omega)
    | done r => exact ⟨r, rfl, hkeeps⟩

/-- More fuel does not change a result. -/
theorem run_of_le {s : σ} {r : ρ} {fuel fuel' : ℕ} (h : run step fuel s = .returns r) (hle : fuel ≤ fuel') :
    run step fuel' s = .returns r := by
  induction fuel generalizing s fuel' with
  | zero => cases h
  | succ fuel ih =>
    obtain ⟨fuel', rfl⟩ := Nat.exists_eq_add_of_le' (show 1 ≤ fuel' by omega)
    rw [run] at h ⊢
    cases ht : step s with
    | none => simp [ht] at h
    | some t =>
      cases t with
      | more s' =>
        rw [ht] at h
        exact ih h (by omega)
      | done r' => rwa [ht] at h

end Loop
