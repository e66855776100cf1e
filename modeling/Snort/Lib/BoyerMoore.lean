import Mathlib.Tactic

/-!
# Occurrences of a pattern, and the jumps between them

* `Occurs`, `FirstAt`: a pattern at a place of a text, and its first place;
* `Mismatch`: a comparison from the end of the pattern that stops;
* `Overlap`: a pattern that overlaps itself, `Occurs.overlap`, `Overlap.occurs`;
* `SkipTable`, `ShiftTable`: how far a search may go on, by the character of the text and by the place in
  the pattern;
* **`Mismatch.jump`**: the search goes forward, and no occurrence is left out.
-/

namespace BoyerMoore

variable {α : Type*}

/-- The pattern stands at a place of the text. -/
def Occurs (pat txt : List α) (i : ℕ) : Prop := pat <+: txt.drop i

instance [DecidableEq α] (pat txt : List α) (i : ℕ) : Decidable (Occurs pat txt i) :=
  inferInstanceAs (Decidable (pat <+: txt.drop i))

/-- The first place of the pattern. -/
structure FirstAt (pat txt : List α) (i : ℕ) : Prop where
  occurs : Occurs pat txt i
  first : ∀ j < i, ¬Occurs pat txt j

section Occurrences

variable {pat txt : List α} {i : ℕ}

theorem occurs_iff : Occurs pat txt i ↔ ∀ k < pat.length, txt[i + k]? = pat[k]? := by
  unfold Occurs
  rw [List.prefix_iff_getElem?]
  refine forall_congr' fun k => ⟨fun h hk => ?_, fun h hk => ?_⟩
  · rw [← List.getElem?_drop, h hk, List.getElem?_eq_getElem hk]
  · rw [List.getElem?_drop, h hk, List.getElem?_eq_getElem hk]

theorem Occurs.le (h : Occurs pat txt i) (hne : pat ≠ []) : i + pat.length ≤ txt.length := by
  have hlength := h.length_le
  have hpos := List.length_pos_of_ne_nil hne
  rw [List.length_drop] at hlength
  omega

theorem FirstAt.unique {j : ℕ} (h : FirstAt pat txt i) (h' : FirstAt pat txt j) : i = j := by
  rcases Nat.lt_trichotomy i j with hlt | heq | hgt
  · exact absurd h.occurs (h'.first i hlt)
  · exact heq
  · exact absurd h'.occurs (h.first j hgt)

/-- The places in a region of the text. -/
theorem occurs_region (hne : pat ≠ []) (k n : ℕ) :
    Occurs pat ((txt.drop k).take n) i ↔ Occurs pat txt (k + i) ∧ i + pat.length ≤ n := by
  constructor
  · intro h
    have hle := h.le hne
    rw [List.length_take] at hle
    refine ⟨occurs_iff.2 fun j hj => ?_, hle.trans (min_le_left _ _)⟩
    rw [← occurs_iff.1 h j hj, List.getElem?_take_of_lt (by omega), List.getElem?_drop, Nat.add_assoc]
  · rintro ⟨h, hle⟩
    refine occurs_iff.2 fun j hj => ?_
    rw [← occurs_iff.1 h j hj, List.getElem?_take_of_lt (by omega), List.getElem?_drop, Nat.add_assoc]

/-- A pattern that occurs has a first place. -/
theorem Occurs.exists_firstAt (h : Occurs pat txt i) : ∃ j, FirstAt pat txt j := by
  classical
  exact ⟨Nat.find ⟨i, h⟩, Nat.find_spec ⟨i, h⟩, fun j hj => Nat.find_min ⟨i, h⟩ hj⟩

end Occurrences

/-! ### Overlaps -/

/-- The pattern stands on itself, shifted. -/
structure Overlap (pat : List α) (q : ℕ) : Prop where
  pos : 0 < q
  lt : q < pat.length
  get : ∀ k, q + k < pat.length → pat[q + k]? = pat[k]?

section Overlap

variable {pat txt : List α} {i j q : ℕ}

/-- Two occurrences that share a place. -/
theorem Occurs.overlap (hi : Occurs pat txt i) (hj : Occurs pat txt j) (hlt : i < j)
    (hnear : j < i + pat.length) : Overlap pat (j - i) := by
  refine ⟨by omega, by omega, fun k hk => ?_⟩
  rw [← occurs_iff.1 hi (j - i + k) hk, ← occurs_iff.1 hj k (by omega)]
  congr 1
  omega

/-- A text with two occurrences. -/
theorem Overlap.occurs (h : Overlap pat q) :
    Occurs pat (pat.take q ++ pat) 0 ∧ Occurs pat (pat.take q ++ pat) q := by
  have hlen : (pat.take q).length = q := List.length_take_of_le h.lt.le
  constructor
  · refine occurs_iff.2 fun k hk => ?_
    rw [Nat.zero_add]
    by_cases hkq : k < q
    · rw [List.getElem?_append_left (by omega), List.getElem?_take_of_lt hkq]
    · rw [List.getElem?_append_right (by omega), hlen, ← h.get (k - q) (by omega),
        Nat.add_sub_of_le (not_lt.1 hkq)]
  · refine occurs_iff.2 fun k hk => ?_
    rw [List.getElem?_append_right (by omega), hlen, Nat.add_sub_cancel_left]

theorem Overlap.map {β : Type*} (f : α → β) (h : Overlap pat q) : Overlap (pat.map f) q := by
  refine ⟨h.pos, ?_, fun k hk => ?_⟩
  · rw [List.length_map]
    exact h.lt
  · rw [List.length_map] at hk
    rw [List.getElem?_map, List.getElem?_map, h.get k hk]

end Overlap

/-! ### Jumps -/

/-- A comparison from the end of the pattern stops at a place of it. -/
structure Mismatch (pat txt : List α) (i p : ℕ) (c : α) : Prop where
  lt : p < pat.length
  get : txt[i + p]? = some c
  ne : pat[p]? ≠ some c
  after : ∀ k, p < k → k < pat.length → txt[i + k]? = pat[k]?

/-- How far the end of the pattern is from a character of it: behind the last place where the character
stands in the pattern. -/
structure SkipTable (pat : List α) (skip : α → ℕ) : Prop where
  le : ∀ c, skip c ≤ pat.length + 1
  last : ∀ c, pat[pat.length - 1]? ≠ some c → 2 ≤ skip c
  after : ∀ c k, k < pat.length → pat.length < k + skip c → pat[k]? ≠ some c

/-- How far the end of the pattern may go from a place of it: for every smaller distance the characters
that have been compared differ. -/
structure ShiftTable (pat : List α) (shift : ℕ → ℕ) : Prop where
  forward : ∀ p, p + 1 < pat.length → pat.length < p + shift p
  apart : ∀ p d, p < pat.length → 0 < d → pat.length + d < p + shift p →
    ∃ k, p < k ∧ k < pat.length ∧ d ≤ k ∧ pat[k - d]? ≠ pat[k]?

/-- The distance of the last place of a character from the end of the pattern. -/
theorem skipTable_idxOf [DecidableEq α] (pat : List α) (hne : pat ≠ []) :
    SkipTable pat fun c => pat.reverse.idxOf c + 1 := by
  have hpos := List.length_pos_of_ne_nil hne
  -- what stands behind the last place is something else
  have hbefore : ∀ c k, k < pat.length → pat.length < k + (pat.reverse.idxOf c + 1) → pat[k]? ≠ some c := by
    intro c k hk hlt hget
    have hidx : pat.length - 1 - k < pat.reverse.idxOf c := by omega
    have hne := List.not_of_lt_findIdx hidx
    rw [List.getElem_reverse, beq_eq_false_iff_ne] at hne
    have hplace : pat.length - 1 - (pat.length - 1 - k) = k := by omega
    simp only [hplace] at hne
    exact hne (Option.some.inj ((List.getElem?_eq_getElem hk).symm.trans hget))
  refine ⟨fun c => ?_, fun c hlast => ?_, hbefore⟩
  · have hle := List.idxOf_le_length (l := pat.reverse) (a := c)
    rw [List.length_reverse] at hle
    exact Nat.succ_le_succ hle
  · by_contra hlt
    have hzero : pat.reverse.idxOf c = 0 := by omega
    refine hlast ?_
    have hmem : pat.reverse.idxOf c < pat.reverse.length := by
      rw [hzero, List.length_reverse]
      exact hpos
    have hget := List.getElem_idxOf hmem
    rw [List.getElem_reverse] at hget
    have hplace : pat.length - 1 - pat.reverse.idxOf c = pat.length - 1 := by omega
    simp only [hplace] at hget
    rw [List.getElem?_eq_getElem (by omega), hget]

section Jump

variable {pat txt : List α} {skip : α → ℕ} {shift : ℕ → ℕ} {i p : ℕ} {c : α}

theorem Mismatch.not_occurs (h : Mismatch pat txt i p c) : ¬Occurs pat txt i := fun hoccurs =>
  h.ne ((occurs_iff.1 hoccurs p h.lt).symm.trans h.get)

/-- The character of the text stands at none of the places that it would have to. -/
theorem Mismatch.not_occurs_skip (h : Mismatch pat txt i p c) (hskip : SkipTable pat skip) {d : ℕ}
    (hlt : pat.length + d < p + skip c) : ¬Occurs pat txt (i + d) := by
  intro hoccurs
  have hle := hskip.le c
  have hp := h.lt
  refine hskip.after c (p - d) (by omega) (by omega) ?_
  rw [← occurs_iff.1 hoccurs (p - d) (by omega), show i + d + (p - d) = i + p by omega]
  exact h.get

/-- What has been compared does not stand where it would have to. -/
theorem Mismatch.not_occurs_shift (h : Mismatch pat txt i p c) (hshift : ShiftTable pat shift) {d : ℕ}
    (hd : 0 < d) (hlt : pat.length + d < p + shift p) : ¬Occurs pat txt (i + d) := by
  intro hoccurs
  obtain ⟨k, hpk, hk, hdk, hne⟩ := hshift.apart p d h.lt hd hlt
  refine hne ?_
  rw [← h.after k hpk hk, ← occurs_iff.1 hoccurs (k - d) (by omega),
    show i + d + (k - d) = i + k by omega]

/-- **The search goes forward, and no occurrence is left out.** -/
theorem Mismatch.jump (h : Mismatch pat txt i p c) (hskip : SkipTable pat skip)
    (hshift : ShiftTable pat shift) :
    i + pat.length < i + p + max (skip c) (shift p) ∧
      ∀ j, i ≤ j → j + pat.length < i + p + max (skip c) (shift p) → ¬Occurs pat txt j := by
  have hp := h.lt
  constructor
  · by_cases hlast : p + 1 < pat.length
    · have hforward := hshift.forward p hlast
      have := le_max_right (skip c) (shift p)
      omega
    · obtain rfl : p = pat.length - 1 := by omega
      have htwo := hskip.last c h.ne
      have := le_max_left (skip c) (shift (pat.length - 1))
      omega
  · intro j hij hj
    obtain ⟨d, rfl⟩ := Nat.exists_eq_add_of_le hij
    rcases Nat.eq_zero_or_pos d with rfl | hd
    · exact h.not_occurs
    · rcases max_cases (skip c) (shift p) with ⟨hmax, -⟩ | ⟨hmax, -⟩
      · exact h.not_occurs_skip hskip (by omega)
      · exact h.not_occurs_shift hshift hd (by omega)

end Jump

end BoyerMoore
