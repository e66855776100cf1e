import Mathlib.Tactic

/-!
# Left-to-right scanners

A scanner reads a list one element at a time and either goes on in a new state or stops with a
result.

* `run` reads until it stops and counts what it has read.
* `run_append`: a scan of two parts is the scan of the first, and where that does not stop the scan of
  the second from the state reached.
* `run_invariant`: what every step keeps.
* `run_stay`: elements on which the scanner stays where it is can be jumped over.
-/

namespace Scanner

/-- What comes of a scan: a state from which to go on, or a result and how much was read. -/
inductive Outcome (σ ρ : Type*)
  | more (s : σ)
  | stop (r : ρ) (n : ℕ)

variable {σ ρ β : Type*}

/-- An outcome behind `k` elements that were read before. -/
def Outcome.shift (k : ℕ) : Outcome σ ρ → Outcome σ ρ
  | .more s => .more s
  | .stop r n => .stop r (n + k)

@[simp] theorem Outcome.shift_more (k : ℕ) (s : σ) :
    (Outcome.more s : Outcome σ ρ).shift k = .more s := rfl

@[simp] theorem Outcome.shift_stop (k : ℕ) (r : ρ) (n : ℕ) :
    (Outcome.stop r n : Outcome σ ρ).shift k = .stop r (n + k) := rfl

theorem Outcome.shift_shift (j k : ℕ) (o : Outcome σ ρ) : (o.shift j).shift k = o.shift (j + k) := by
  cases o with
  | more s => rfl
  | stop r n => rw [shift_stop, shift_stop, shift_stop, Nat.add_assoc]

theorem Outcome.shift_zero (o : Outcome σ ρ) : o.shift 0 = o := by
  cases o <;> rfl

theorem Outcome.of_shift_eq_stop {o : Outcome σ ρ} {k n : ℕ} {r : ρ} (h : o.shift k = .stop r n) :
    ∃ j, o = .stop r j ∧ n = j + k := by
  cases o with
  | more s => cases h
  | stop r' j =>
    cases h
    exact ⟨j, rfl, rfl⟩

variable (step : σ → β → σ ⊕ ρ)

/-- Read until the scanner stops. -/
def run : σ → List β → Outcome σ ρ
  | s, [] => .more s
  | s, c :: cs => (step s c).elim (fun s' => (run s' cs).shift 1) fun r => .stop r 1

@[simp] theorem run_nil (s : σ) : run step s [] = .more s := rfl

variable {step}

theorem run_cons_inl {s s' : σ} {c : β} (cs : List β) (h : step s c = .inl s') :
    run step s (c :: cs) = (run step s' cs).shift 1 := by
  rw [run, h, Sum.elim_inl]

theorem run_cons_inr {s : σ} {r : ρ} {c : β} (cs : List β) (h : step s c = .inr r) :
    run step s (c :: cs) = .stop r 1 := by
  rw [run, h, Sum.elim_inr]

/-- A scan that has not stopped goes on. -/
theorem run_append_more {s s' : σ} {a : List β} (b : List β) (h : run step s a = .more s') :
    run step s (a ++ b) = (run step s' b).shift a.length := by
  induction a generalizing s with
  | nil =>
    cases h
    exact (Outcome.shift_zero _).symm
  | cons c a ih =>
    cases hstep : step s c with
    | inl t =>
      rw [run_cons_inl _ hstep] at h
      cases hrun : run step t a with
      | more t' =>
        rw [hrun] at h
        cases h
        rw [List.cons_append, run_cons_inl _ hstep, ih hrun, Outcome.shift_shift, List.length_cons]
      | stop r n =>
        rw [hrun] at h
        cases h
    | inr r =>
      rw [run_cons_inr _ hstep] at h
      cases h

/-- A scan that has stopped does not see what follows. -/
theorem run_append_stop {s : σ} {r : ρ} {n : ℕ} {a : List β} (b : List β)
    (h : run step s a = .stop r n) : run step s (a ++ b) = .stop r n := by
  induction a generalizing s n with
  | nil => cases h
  | cons c a ih =>
    cases hstep : step s c with
    | inl t =>
      rw [run_cons_inl _ hstep] at h
      cases hrun : run step t a with
      | more t' =>
        rw [hrun] at h
        cases h
      | stop r' m =>
        rw [hrun] at h
        cases h
        rw [List.cons_append, run_cons_inl _ hstep, ih hrun, Outcome.shift_stop]
    | inr r' =>
      rw [run_cons_inr _ hstep] at h
      rw [List.cons_append, run_cons_inr _ hstep, h]

/-- A scan stops at an element. -/
theorem exists_of_stop {s : σ} {r : ρ} {n : ℕ} {a : List β} (h : run step s a = .stop r n) :
    ∃ s' c, step s' c = .inr r := by
  induction a generalizing s n with
  | nil => cases h
  | cons c a ih =>
    cases hstep : step s c with
    | inl t =>
      rw [run_cons_inl _ hstep] at h
      cases hrun : run step t a with
      | more t' =>
        rw [hrun] at h
        cases h
      | stop r' m =>
        rw [hrun] at h
        cases h
        exact ih hrun
    | inr r' =>
      rw [run_cons_inr _ hstep] at h
      cases h
      exact ⟨s, c, hstep⟩

/-- How much a scan has read. -/
theorem length_of_stop {s : σ} {r : ρ} {n : ℕ} {a : List β} (h : run step s a = .stop r n) :
    1 ≤ n ∧ n ≤ a.length := by
  induction a generalizing s n with
  | nil => cases h
  | cons c a ih =>
    cases hstep : step s c with
    | inl t =>
      rw [run_cons_inl _ hstep] at h
      cases hrun : run step t a with
      | more t' =>
        rw [hrun] at h
        cases h
      | stop r' m =>
        rw [hrun] at h
        cases h
        have hih := ih hrun
        rw [List.length_cons]
        omega
    | inr r' =>
      rw [run_cons_inr _ hstep] at h
      cases h
      rw [List.length_cons]
      omega

/-- Elements on which a scanner stays where it is. -/
theorem run_stay {s : σ} {a : List β} (b : List β) (h : ∀ c ∈ a, step s c = .inl s) :
    run step s (a ++ b) = (run step s b).shift a.length := by
  induction a with
  | nil => exact (Outcome.shift_zero _).symm
  | cons c a ih =>
    rw [List.cons_append, run_cons_inl _ (h c List.mem_cons_self),
      ih fun c' hc' => h c' (List.mem_cons_of_mem _ hc'), Outcome.shift_shift, List.length_cons]

/-- What every step keeps is kept by a scan, and holds where it stops. -/
theorem run_invariant {P : σ → Prop} {Q : ρ → Prop}
    (hmore : ∀ s c s', P s → step s c = .inl s' → P s')
    (hstop : ∀ s c r, P s → step s c = .inr r → Q r) {s : σ} (a : List β) (hs : P s) :
    (∀ s', run step s a = .more s' → P s') ∧ ∀ r n, run step s a = .stop r n → Q r := by
  induction a generalizing s with
  | nil =>
    refine ⟨fun s' h => ?_, fun r n h => ?_⟩
    · cases h
      exact hs
    · cases h
  | cons c a ih =>
    cases hstep : step s c with
    | inl t =>
      obtain ⟨ihmore, ihstop⟩ := ih (hmore s c t hs hstep)
      rw [run_cons_inl _ hstep]
      cases hrun : run step t a with
      | more t' =>
        refine ⟨fun s' h => ?_, fun r n h => ?_⟩
        · cases h
          exact ihmore _ hrun
        · cases h
      | stop r' k =>
        refine ⟨fun s' h => ?_, fun r n h => ?_⟩
        · cases h
        · cases h
          exact ihstop _ _ hrun
    | inr r' =>
      rw [run_cons_inr _ hstep]
      refine ⟨fun s' h => ?_, fun r n h => ?_⟩
      · cases h
      · cases h
        exact hstop _ _ _ hs hstep

end Scanner
