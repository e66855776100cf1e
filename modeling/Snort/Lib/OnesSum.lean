import Mathlib.Tactic

/-!
# Sums in one's complement arithmetic

Words have 16 bits; a carry out of the highest bit is added at the lowest one.

* `add`, `sum`: the sum of two words and of a list of words;
* `residue`: the word of a total; **`sum_eq`**: the order of the words does not matter;
* `fold`: two rounds of carries; **`fold_eq`**: they are enough for totals of 32 bits;
* `add_eq_ones_iff`: the sum of two words is minus zero where they are complements.
-/

namespace OnesSum

/-- A word with all bits set, which is minus zero. -/
def ones : ℕ := 65535

/-- Addition with an end-around carry. -/
def add (a b : ℕ) : ℕ := if a + b < 65536 then a + b else a + b - 65535

/-- The sum of some words. -/
def sum (ws : List ℕ) : ℕ := ws.foldl add 0

/-- The word that a total is reduced to: zero comes from zero only. -/
def residue (total : ℕ) : ℕ := if total = 0 then 0 else (total - 1) % 65535 + 1

/-- The carries of a total are added to its low half, twice; then only the low half is taken. -/
def fold (total : ℕ) : ℕ :=
  let once := total / 65536 + total % 65536
  (once + once / 65536) % 65536

@[simp] theorem residue_zero : residue 0 = 0 := rfl

theorem residue_of_lt {a : ℕ} (h : a < 65536) : residue a = a := by
  unfold residue
  split_ifs <;> omega

theorem residue_lt (a : ℕ) : residue a < 65536 := by
  unfold residue
  split_ifs <;> omega

/-- Totals may be reduced before they are added. -/
theorem add_residue (a b : ℕ) : add (residue a) (residue b) = residue (a + b) := by
  unfold add residue
  split_ifs <;> omega

theorem add_eq {a b : ℕ} (ha : a < 65536) (hb : b < 65536) : add a b = residue (a + b) := by
  rw [← add_residue, residue_of_lt ha, residue_of_lt hb]

theorem foldl_add {ws : List ℕ} (h : ∀ w ∈ ws, w < 65536) (a : ℕ) :
    ws.foldl add (residue a) = residue (a + ws.sum) := by
  induction ws generalizing a with
  | nil => rfl
  | cons w ws ih =>
    have hw : residue w = w := residue_of_lt (h w List.mem_cons_self)
    rw [List.foldl_cons, List.sum_cons, ← Nat.add_assoc, ← ih fun v hv => h v (List.mem_cons_of_mem _ hv),
      ← add_residue, hw]

/-- **The sum** of some words is the word of their total. -/
theorem sum_eq {ws : List ℕ} (h : ∀ w ∈ ws, w < 65536) : sum ws = residue ws.sum := by
  rw [← Nat.zero_add ws.sum, ← foldl_add h]
  rfl

/-- **Folding twice** is enough for 32 bits. -/
theorem fold_eq {total : ℕ} (h : total < 2 ^ 32) : fold total = residue total := by
  obtain ⟨high, low, hlow, rfl⟩ : ∃ high low, low < 65536 ∧ total = 65536 * high + low :=
    ⟨total / 65536, total % 65536, Nat.mod_lt _ (by decide), (Nat.div_add_mod _ _).symm⟩
  have hhigh : high < 65536 := by omega
  have honce : (65536 * high + low) / 65536 + (65536 * high + low) % 65536 = high + low := by omega
  unfold fold
  rw [honce]
  -- the second round brings a carry in at most once more
  by_cases hcarry : high + low < 65536
  · have hsecond : (high + low + (high + low) / 65536) % 65536 = high + low := by omega
    rw [hsecond, ← residue_of_lt hcarry]
    unfold residue
    split_ifs <;> omega
  · have hsecond : (high + low + (high + low) / 65536) % 65536 = high + low - 65535 := by omega
    rw [hsecond]
    unfold residue
    split_ifs <;> omega

/-- Words that add up to minus zero are complements, or both are minus zero. -/
theorem add_eq_ones_iff {a b : ℕ} (ha : a < 65536) (hb : b < 65536) :
    add a b = ones ↔ a = ones - b ∨ a = ones ∧ b = ones := by
  unfold add ones
  split_ifs <;> omega

theorem sum_le {ws : List ℕ} (h : ∀ w ∈ ws, w < 65536) : ws.sum ≤ ws.length * 65535 := by
  have := List.sum_le_card_nsmul ws 65535 fun w hw => Nat.le_of_lt_succ (h w hw)
  simpa using this

end OnesSum
