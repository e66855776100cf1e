import Mathlib.Tactic

/-!
# Texts with balanced brackets

One kind of brackets in a text over any alphabet.

* `Balanced`: the text is built up from other characters and from bracketed texts;
* `depth`: the number of open brackets behind a text, none when a bracket closes nothing;
* `balanced_iff_depth`: a text is balanced when nothing is open behind it;
* `Balanced.unique`: which bracket closes a balanced text.
-/

namespace Brackets

variable {α : Type*} [DecidableEq α] {op cl : α}

/-- Balanced and properly nested brackets. -/
inductive Balanced (op cl : α) : List α → Prop
  | nil : Balanced op cl []
  | skip {c : α} {s : List α} (hop : c ≠ op) (hcl : c ≠ cl) (h : Balanced op cl s) :
      Balanced op cl (c :: s)
  | nest {s t : List α} (hs : Balanced op cl s) (ht : Balanced op cl t) :
      Balanced op cl (op :: (s ++ cl :: t))

/-- The number of open brackets behind a text, from `d` of them on. -/
def depth (op cl : α) : ℕ → List α → Option ℕ
  | d, [] => some d
  | d, c :: s =>
    if c = op then depth op cl (d + 1) s
    else if c = cl then if d = 0 then none else depth op cl (d - 1) s
    else depth op cl d s

@[simp] theorem depth_nil (d : ℕ) : depth op cl d [] = some d := by simp [depth]

@[simp] theorem depth_open (d : ℕ) (s : List α) :
    depth op cl d (op :: s) = depth op cl (d + 1) s := by
  rw [depth, if_pos rfl]

theorem depth_close (hne : cl ≠ op) (d : ℕ) (s : List α) :
    depth op cl (d + 1) (cl :: s) = depth op cl d s := by
  rw [depth, if_neg hne, if_pos rfl, if_neg (Nat.succ_ne_zero d), Nat.add_sub_cancel]

theorem depth_close_zero (hne : cl ≠ op) (s : List α) : depth op cl 0 (cl :: s) = none := by
  rw [depth, if_neg hne, if_pos rfl, if_pos rfl]

theorem depth_skip {c : α} (hop : c ≠ op) (hcl : c ≠ cl) (d : ℕ) (s : List α) :
    depth op cl d (c :: s) = depth op cl d s := by
  rw [depth, if_neg hop, if_neg hcl]

theorem depth_append (d : ℕ) (s t : List α) :
    depth op cl d (s ++ t) = (depth op cl d s).bind fun d' => depth op cl d' t := by
  induction s generalizing d with
  | nil => simp
  | cons c s ih =>
    rw [List.cons_append]
    by_cases hop : c = op
    · rw [hop, depth_open, depth_open, ih]
    by_cases hcl : c = cl
    · rw [hcl] at hop ⊢
      cases d with
      | zero => rw [depth_close_zero hop, depth_close_zero hop, Option.bind_none]
      | succ d => rw [depth_close hop, depth_close hop, ih]
    · rw [depth_skip hop hcl, depth_skip hop hcl, ih]

/-- More open brackets in front are open behind, too. -/
theorem depth_add {d e : ℕ} {s : List α} (h : depth op cl d s = some e) (k : ℕ) :
    depth op cl (d + k) s = some (e + k) := by
  induction s generalizing d with
  | nil =>
    rw [depth_nil] at h ⊢
    rw [Option.some.inj h]
  | cons c s ih =>
    by_cases hop : c = op
    · rw [hop, depth_open] at h ⊢
      rw [Nat.add_right_comm]
      exact ih h
    by_cases hcl : c = cl
    · rw [hcl] at hop h ⊢
      cases d with
      | zero =>
        rw [depth_close_zero hop] at h
        cases h
      | succ d =>
        rw [depth_close hop] at h
        rw [Nat.add_right_comm, depth_close hop]
        exact ih h
    · rw [depth_skip hop hcl] at h ⊢
      exact ih h

/-- A bracketed text leaves the depth. -/
theorem depth_nest (hne : cl ≠ op) {s : List α} (hs : depth op cl 0 s = some 0) (d : ℕ)
    (t : List α) : depth op cl d (op :: (s ++ cl :: t)) = depth op cl d t := by
  have hin : depth op cl (d + 1) s = some (d + 1) := by
    simpa using depth_add hs (d + 1)
  rw [depth_open, depth_append, hin, Option.bind_some, depth_close hne]

/-- Only the brackets count. -/
theorem depth_filter (p : α → Bool) (hop : p op = true) (hcl : p cl = true) (d : ℕ) (s : List α) :
    depth op cl d (s.filter p) = depth op cl d s := by
  induction s generalizing d with
  | nil => rfl
  | cons c s ih =>
    by_cases hc : p c = true
    · rw [List.filter_cons_of_pos hc]
      simp only [depth, ih]
    · have hop' : c ≠ op := fun h => hc (h ▸ hop)
      have hcl' : c ≠ cl := fun h => hc (h ▸ hcl)
      rw [List.filter_cons_of_neg hc, depth_skip hop' hcl', ih]

theorem depth_dropWhile (p : α → Bool) (hop : p op = false) (hcl : p cl = false) (d : ℕ)
    (s : List α) : depth op cl d (s.dropWhile p) = depth op cl d s := by
  induction s with
  | nil => rfl
  | cons c s ih =>
    by_cases hc : p c = true
    · have hop' : c ≠ op := fun h => Bool.false_ne_true (hop.symm.trans (h ▸ hc))
      have hcl' : c ≠ cl := fun h => Bool.false_ne_true (hcl.symm.trans (h ▸ hc))
      rw [List.dropWhile_cons_of_pos hc, depth_skip hop' hcl', ih]
    · rw [List.dropWhile_cons_of_neg hc]

theorem Balanced.depth_eq (hne : cl ≠ op) {s : List α} (h : Balanced op cl s) :
    depth op cl 0 s = some 0 := by
  induction h with
  | nil => rw [depth_nil]
  | skip hop hcl _ ih => rw [depth_skip hop hcl, ih]
  | nest _ _ ihs iht => rw [depth_nest hne ihs, iht]

/-- Where a text closes a bracket that was open in front of it. -/
theorem exists_close {n : ℕ} : ∀ {s : List α} {d : ℕ}, s.length ≤ n →
    depth op cl (d + 1) s = some 0 →
      ∃ a t, s = a ++ cl :: t ∧ Balanced op cl a ∧ depth op cl d t = some 0 := by
  induction n with
  | zero =>
    intro s d hlen h
    rw [List.length_eq_zero_iff.1 (Nat.le_zero.1 hlen), depth_nil] at h
    cases h
  | succ n ih =>
    intro s d hlen h
    cases s with
    | nil =>
      rw [depth_nil] at h
      cases h
    | cons c s =>
      have hlen : s.length ≤ n := Nat.le_of_succ_le_succ hlen
      by_cases hop : c = op
      · -- a text inside is closed first
        rw [hop, depth_open] at h
        obtain ⟨a, t, rfl, ha, ht⟩ := ih hlen h
        rw [List.length_append, List.length_cons] at hlen
        obtain ⟨b, u, rfl, hb, hu⟩ := ih (by omega) ht
        refine ⟨op :: (a ++ cl :: b), u, ?_, .nest ha hb, hu⟩
        rw [hop, List.cons_append, List.append_assoc, List.cons_append]
      by_cases hcl : c = cl
      · rw [hcl] at hop h
        rw [depth_close hop] at h
        exact ⟨[], s, by rw [hcl, List.nil_append], .nil, h⟩
      · rw [depth_skip hop hcl] at h
        obtain ⟨a, t, rfl, ha, ht⟩ := ih hlen h
        exact ⟨c :: a, t, by rw [List.cons_append], .skip hop hcl ha, ht⟩

/-- **A text is balanced when nothing is open behind it** and nothing closes too much. -/
theorem balanced_iff_depth (hne : cl ≠ op) {s : List α} :
    Balanced op cl s ↔ depth op cl 0 s = some 0 := by
  refine ⟨fun h => h.depth_eq hne, ?_⟩
  induction hn : s.length using Nat.strong_induction_on generalizing s with
  | _ n ih =>
    intro h
    cases s with
    | nil => exact .nil
    | cons c s =>
      by_cases hop : c = op
      · rw [hop, depth_open] at h
        obtain ⟨a, t, rfl, ha, ht⟩ := exists_close le_rfl h
        rw [List.length_cons, List.length_append, List.length_cons] at hn
        rw [hop]
        exact .nest ha (ih t.length (by omega) rfl ht)
      by_cases hcl : c = cl
      · rw [hcl] at hop h
        rw [depth_close_zero hop] at h
        cases h
      · rw [depth_skip hop hcl] at h
        exact .skip hop hcl (ih s.length (by rw [← hn]; exact Nat.lt_succ_self _) rfl h)

/-- The bracket that closes a text is determined. -/
theorem Balanced.unique (hne : cl ≠ op) {a b x y : List α} (ha : Balanced op cl a) (hb : Balanced op cl b)
    (h : a ++ cl :: x = b ++ cl :: y) : a = b ∧ x = y := by
  -- a balanced text does not go on behind a balanced one with a bracket that closes
  have hnot : ∀ {a c : List α}, Balanced op cl a → ¬Balanced op cl (a ++ cl :: c) := by
    intro a c ha hac
    have hdepth := hac.depth_eq hne
    rw [depth_append, ha.depth_eq hne, Option.bind_some, depth_close_zero hne] at hdepth
    cases hdepth
  rcases List.append_eq_append_iff.1 h with ⟨c, rfl, hc⟩ | ⟨c, rfl, hc⟩
  · cases c with
    | nil => exact ⟨by simp, (List.cons.inj hc).2⟩
    | cons d c =>
      obtain ⟨rfl, -⟩ := List.cons.inj hc
      exact absurd hb (hnot ha)
  · cases c with
    | nil => exact ⟨by simp, (List.cons.inj hc).2.symm⟩
    | cons d c =>
      obtain ⟨rfl, -⟩ := List.cons.inj hc
      exact absurd ha (hnot hb)

end Brackets
