import Mathlib.Tactic

/-!
# Longest suffixes in a prefix closed language

`P` is the set of words that a trie spells: it contains the empty word and is closed under
prefixes.  `longest P w` is the longest suffix of `w` in `P`, the state in which a multi-pattern
matcher is after reading `w`.

* `longest_concat`: the state after `w ++ [a]` depends on the state after `w` only.
* `fail P w` is where a matcher goes on when it cannot extend `w`; `Skips P w f` says that `f` will
  do as well.
-/

namespace AhoCorasick

variable {α : Type*}

/-- A language that contains the empty word and the prefixes of its words. -/
structure PrefixClosed (P : List α → Prop) : Prop where
  nil : P []
  init : ∀ {w : List α} {a : α}, P (w ++ [a]) → P w

theorem PrefixClosed.prefix {P : List α → Prop} (hP : PrefixClosed P) {v w : List α} (h : v <+: w)
    (hw : P w) : P v := by
  obtain ⟨t, rfl⟩ := h
  induction t using List.reverseRecOn with
  | nil => rwa [List.append_nil] at hw
  | append_singleton t a ih => exact ih (hP.init (by rwa [List.append_assoc]))

open Classical in
/-- The longest suffix of a word in `P`. -/
noncomputable def longest (P : List α → Prop) : List α → List α
  | [] => []
  | a :: w => if P (a :: w) then a :: w else longest P w

/-- The longest proper suffix in `P`. -/
noncomputable def fail (P : List α → Prop) (w : List α) : List α := longest P w.tail

variable {P : List α → Prop}

theorem longest_of_mem {w : List α} (h : P w) : longest P w = w := by
  cases w with
  | nil => rfl
  | cons a w => rw [longest, if_pos h]

theorem longest_cons_of_not {a : α} {w : List α} (h : ¬ P (a :: w)) :
    longest P (a :: w) = longest P w := by
  rw [longest, if_neg h]

theorem longest_suffix (w : List α) : longest P w <:+ w := by
  induction w with
  | nil => exact List.suffix_refl _
  | cons a w ih =>
    by_cases h : P (a :: w)
    · rw [longest_of_mem h]
    · rw [longest_cons_of_not h]
      exact ih.trans (List.suffix_cons a w)

theorem longest_mem (h0 : P []) (w : List α) : P (longest P w) := by
  induction w with
  | nil => exact h0
  | cons a w ih =>
    by_cases h : P (a :: w)
    · rw [longest_of_mem h]
      exact h
    · rw [longest_cons_of_not h]
      exact ih

/-- Every suffix in `P` is a suffix of the longest one. -/
theorem suffix_longest {v w : List α} (hv : P v) (h : v <:+ w) : v <:+ longest P w := by
  induction w with
  | nil => exact h
  | cons a w ih =>
    by_cases hw : P (a :: w)
    · rw [longest_of_mem hw]
      exact h
    · rw [longest_cons_of_not hw]
      rcases List.suffix_cons_iff.1 h with rfl | h
      · exact absurd hv hw
      · exact ih h

theorem suffix_longest_iff {v w : List α} (hv : P v) : v <:+ longest P w ↔ v <:+ w :=
  ⟨fun h => h.trans (longest_suffix w), suffix_longest hv⟩

/-- The longest suffix is the only one of which all others are suffixes. -/
theorem longest_unique (h0 : P []) {u w : List α} (hu : P u) (huw : u <:+ w)
    (h : ∀ v, P v → v <:+ w → v <:+ u) : u = longest P w := by
  have h1 := suffix_longest hu huw
  have h2 := h _ (longest_mem h0 w) (longest_suffix w)
  exact h1.eq_of_length (le_antisymm h1.length_le h2.length_le)

theorem longest_concat (hP : PrefixClosed P) (w : List α) (a : α) :
    longest P (w ++ [a]) = longest P (longest P w ++ [a]) := by
  have hsub : longest P w ++ [a] <:+ w ++ [a] := by
    obtain ⟨t, ht⟩ := longest_suffix (P := P) w
    exact ⟨t, by rw [← List.append_assoc, ht]⟩
  refine (longest_unique hP.nil (longest_mem hP.nil _) ((longest_suffix _).trans hsub) ?_).symm
  intro v hv hvw
  refine suffix_longest hv ?_
  rcases List.suffix_concat_iff.1 hvw with rfl | ⟨t, rfl, ht⟩
  · exact List.nil_suffix
  · obtain ⟨s, hs⟩ := suffix_longest (hP.init hv) ht
    exact ⟨s, by rw [← List.append_assoc, hs]⟩

/-- A suffix that stands for a word when the word cannot be extended. -/
structure Skips (P : List α → Prop) (w f : List α) : Prop where
  mem : P f
  lt : f.length < w.length
  suffix : f <:+ w
  next : ∀ a, ¬ P (w ++ [a]) → longest P (f ++ [a]) = longest P (w ++ [a])

theorem fail_length_lt {w : List α} (h : w ≠ []) : (fail P w).length < w.length := by
  have h1 := (longest_suffix (P := P) w.tail).length_le
  have h2 := List.length_pos_iff.2 h
  rw [List.length_tail] at h1
  exact Nat.lt_of_le_of_lt h1 (by omega)

theorem skips_fail (hP : PrefixClosed P) {w : List α} (h : w ≠ []) : Skips P w (fail P w) where
  mem := longest_mem hP.nil _
  lt := fail_length_lt h
  suffix := (longest_suffix _).trans (List.tail_suffix w)
  next a ha := by
    cases w with
    | nil => exact absurd rfl h
    | cons b w =>
      have hb : ¬ P (b :: (w ++ [a])) := ha
      rw [List.cons_append, longest_cons_of_not hb, longest_concat hP w a]
      rfl

/-- A stand-in may itself be skipped when the word can be extended wherever it can. -/
theorem Skips.trans {w f f' : List α} (h : Skips P w f) (h' : Skips P f f')
    (hsub : ∀ a, P (f ++ [a]) → P (w ++ [a])) : Skips P w f' where
  mem := h'.mem
  lt := h'.lt.trans h.lt
  suffix := h'.suffix.trans h.suffix
  next a ha := (h'.next a fun hf => ha (hsub a hf)).trans (h.next a ha)

/-- A word of `P` that cannot be extended. -/
def DeadEnd (P : List α → Prop) (w : List α) : Prop := ∀ a, ¬ P (w ++ [a])

/-- The suffixes of a dead end are dead ends. -/
def DeadEndsClosed (P : List α → Prop) : Prop :=
  ∀ w, P w → DeadEnd P w → ∀ u, u ≠ [] → u <:+ w → DeadEnd P u

/-- The suffixes of a word in a set of patterns: the word itself and those of its fail state. -/
theorem suffix_iff_eq_or_fail {v w : List α} (hv : P v) (hw : w ≠ []) :
    v <:+ w ↔ v = w ∨ v <:+ fail P w := by
  cases w with
  | nil => exact absurd rfl hw
  | cons a w => rw [List.suffix_cons_iff, fail, List.tail_cons, suffix_longest_iff hv]

end AhoCorasick
