import Mathlib.Tactic

/-!
# Tables whose rows fall through

A row of the table takes some characters and names the state behind them; what it does not take falls
through to another row.  A row without an event takes everything.

* `find`: the row that takes a character, from a state on;
* `Total`: every fall comes to an end inside the table;
* `Total.find`: some row takes the character;
* `find_congr`: only the events of the table matter.
-/

namespace FallThrough

variable {α : Type*}

/-- A row: what it takes, the state behind it, the row that is tried where it does not match. -/
structure Row (α : Type*) where
  event : ℕ
  next : ℕ
  other : ℕ
  action : α

/-- The row that takes a character; `fuel` rows are tried. -/
def findFuel (table : List (Row α)) (takes : ℕ → Bool) : ℕ → ℕ → Option (Row α)
  | 0, _ => none
  | fuel + 1, i =>
    match table[i]? with
    | none => none
    | some m => if m.event = 0 ∨ takes m.event then some m else findFuel table takes fuel m.other

/-- The row that takes a character, from a state on. -/
def find (table : List (Row α)) (takes : ℕ → Bool) (i : ℕ) : Option (Row α) :=
  findFuel table takes table.length i

/-- The fall from a state comes to a row that takes everything. -/
def ends (table : List (Row α)) : ℕ → ℕ → Bool
  | 0, _ => false
  | fuel + 1, i =>
    match table[i]? with
    | none => false
    | some m => m.event = 0 || ends table fuel m.other

/-- Every fall comes to an end, and every row stays inside the table. -/
structure Total (table : List (Row α)) : Prop where
  ends : ∀ i < table.length, ends table table.length i = true
  next : ∀ m ∈ table, m.next < table.length
  other : ∀ m ∈ table, m.other < table.length

section

variable {table : List (Row α)}

theorem exists_findFuel (takes : ℕ → Bool) :
    ∀ {fuel i : ℕ}, ends table fuel i = true →
      ∃ m ∈ table, (m.event = 0 ∨ takes m.event = true) ∧ findFuel table takes fuel i = some m := by
  intro fuel
  induction fuel with
  | zero => exact fun h => absurd h Bool.false_ne_true
  | succ fuel ih =>
    intro i h
    rw [ends] at h
    rw [findFuel]
    cases hm : table[i]? with
    | none => simp [hm] at h
    | some m =>
      rw [hm] at h
      dsimp only at h ⊢
      by_cases htakes : m.event = 0 ∨ takes m.event = true
      · exact ⟨m, List.mem_of_getElem? hm, htakes, if_pos htakes⟩
      · rw [if_neg htakes]
        apply ih
        simpa [(not_or.1 htakes).1] using h

/-- **Some row takes the character.** -/
theorem Total.find (h : Total table) (takes : ℕ → Bool) {i : ℕ} (hi : i < table.length) :
    ∃ m ∈ table, (m.event = 0 ∨ takes m.event = true) ∧ find table takes i = some m :=
  exists_findFuel takes (h.ends i hi)

/-- Only the events of the table matter. -/
theorem find_congr {takes takes' : ℕ → Bool}
    (h : ∀ m ∈ table, m.event ≠ 0 → takes m.event = takes' m.event) (i : ℕ) :
    FallThrough.find table takes i = FallThrough.find table takes' i := by
  unfold FallThrough.find
  generalize table.length = fuel
  induction fuel generalizing i with
  | zero => rfl
  | succ fuel ih =>
    rw [findFuel, findFuel]
    cases hm : table[i]? with
    | none => rfl
    | some m =>
      dsimp only
      rw [ih]
      by_cases hzero : m.event = 0
      · rw [if_pos (Or.inl hzero), if_pos (Or.inl hzero)]
      · rw [h m (List.mem_of_getElem? hm) hzero]

end

end FallThrough
