import Mathlib.Tactic

/-!
# Buffers

A buffer is a memory, a function of the offset; what is read from it is a list.

* `readBuf`, `write`: reading and writing a stretch;
* `copyDown`: the loop that copies a stretch towards the front, element by element;
* **`readBuf_copyDown_write`**: what is moved to the front and written behind it is read back in order.
-/

namespace Buffer

variable {α : Type*}

/-- The `n` elements from `off` on. -/
def readBuf (buf : ℕ → α) (off n : ℕ) : List α := (List.range n).map fun i => buf (off + i)

/-- A list written at `off`. -/
def write (buf : ℕ → α) (off : ℕ) (l : List α) : ℕ → α :=
  fun i => if off ≤ i then l.getD (i - off) (buf i) else buf i

/-- `n` elements from `off + i` on are copied to `i`, the first one first. -/
def copyDown (off : ℕ) : (n i : ℕ) → (ℕ → α) → ℕ → α
  | 0, _, buf => buf
  | n + 1, i, buf => copyDown off n (i + 1) (Function.update buf i (buf (off + i)))

@[simp] theorem length_readBuf (buf : ℕ → α) (off n : ℕ) : (readBuf buf off n).length = n := by
  simp [readBuf]

@[simp] theorem readBuf_zero (buf : ℕ → α) (off : ℕ) : readBuf buf off 0 = [] := rfl

theorem readBuf_add (buf : ℕ → α) (off a b : ℕ) :
    readBuf buf off (a + b) = readBuf buf off a ++ readBuf buf (off + a) b := by
  unfold readBuf
  rw [List.range_add, List.map_append, List.map_map]
  congr 1
  apply List.map_congr_left
  intro i _
  simp only [Function.comp_apply, Nat.add_assoc]

theorem readBuf_succ (buf : ℕ → α) (off n : ℕ) :
    readBuf buf off (n + 1) = buf off :: readBuf buf (off + 1) n := by
  rw [Nat.add_comm n 1, readBuf_add]
  rfl

/-- The two parts of what is read. -/
theorem readBuf_eq_append {buf : ℕ → α} {off n : ℕ} {u v : List α} (h : readBuf buf off n = u ++ v) :
    readBuf buf off u.length = u ∧ readBuf buf (off + u.length) v.length = v ∧
      n = u.length + v.length := by
  have hn : n = u.length + v.length := by
    rw [← List.length_append, ← h, length_readBuf]
  rw [hn, readBuf_add] at h
  obtain ⟨h1, h2⟩ := List.append_inj h (length_readBuf ..)
  exact ⟨h1, h2, hn⟩

theorem readBuf_congr {buf buf' : ℕ → α} {off off' n : ℕ}
    (h : ∀ i < n, buf (off + i) = buf' (off' + i)) : readBuf buf off n = readBuf buf' off' n := by
  apply List.map_congr_left
  intro i hi
  exact h i (List.mem_range.1 hi)

theorem readBuf_eq_replicate {buf : ℕ → α} {off n : ℕ} {a : α}
    (h : ∀ i < n, buf (off + i) = a) : readBuf buf off n = List.replicate n a := by
  apply List.eq_replicate_iff.2
  refine ⟨length_readBuf .., fun b hb => ?_⟩
  obtain ⟨i, hi, rfl⟩ := List.mem_map.1 hb
  exact h i (List.mem_range.1 hi)

theorem take_readBuf (buf : ℕ → α) (off : ℕ) {k n : ℕ} (h : k ≤ n) :
    (readBuf buf off n).take k = readBuf buf off k := by
  obtain ⟨m, rfl⟩ := Nat.exists_eq_add_of_le h
  rw [readBuf_add]
  exact List.take_left' (length_readBuf ..)

theorem drop_readBuf (buf : ℕ → α) (off : ℕ) {k n : ℕ} (h : k ≤ n) :
    (readBuf buf off n).drop k = readBuf buf (off + k) (n - k) := by
  obtain ⟨m, rfl⟩ := Nat.exists_eq_add_of_le h
  rw [readBuf_add, List.drop_left' (length_readBuf ..), Nat.add_sub_cancel_left]

@[simp] theorem write_nil (buf : ℕ → α) (off : ℕ) : write buf off [] = buf := by
  funext i
  simp [write]

/-- A list is written element by element. -/
theorem write_cons (buf : ℕ → α) (off : ℕ) (a : α) (l : List α) :
    write buf off (a :: l) = write (Function.update buf off a) (off + 1) l := by
  funext i
  simp only [write]
  rcases lt_trichotomy i off with h | rfl | h
  · rw [if_neg (by omega), if_neg (by omega), Function.update_of_ne (by omega)]
  · simp
  · obtain ⟨j, rfl⟩ := Nat.exists_eq_add_of_lt h
    rw [if_pos (by omega), if_pos (by omega), Function.update_of_ne (by omega)]
    rw [Nat.add_right_comm off j 1, Nat.add_sub_cancel_left, Nat.add_right_comm off 1 j,
      Nat.add_assoc off j 1, Nat.add_sub_cancel_left, List.getD_cons_succ]

theorem readBuf_write (buf : ℕ → α) (off : ℕ) (l : List α) :
    readBuf (write buf off l) off l.length = l := by
  apply List.ext_getElem
  · simp
  · intro i h1 h2
    simp only [readBuf, List.getElem_map, List.getElem_range, write]
    rw [if_pos (Nat.le_add_right off i), Nat.add_sub_cancel_left]
    rw [List.getD_eq_getElem?_getD, List.getElem?_eq_getElem h2, Option.getD_some]

theorem readBuf_write_below (buf : ℕ → α) (off : ℕ) (l : List α) {lo n : ℕ} (h : lo + n ≤ off) :
    readBuf (write buf off l) lo n = readBuf buf lo n := by
  apply readBuf_congr
  intro i hi
  exact if_neg (by omega)

theorem copyDown_apply (off n i : ℕ) (buf : ℕ → α) (j : ℕ) :
    copyDown off n i buf j = if i ≤ j ∧ j < i + n then buf (off + j) else buf j := by
  induction n generalizing i buf with
  | zero =>
    rw [if_neg (by omega)]
    rfl
  | succ n ih =>
    rw [copyDown, ih]
    by_cases hj : j = i
    · subst hj
      rw [if_neg (by omega), if_pos (by omega), Function.update_self]
    · have hoff : i + 1 ≤ j → off + j ≠ i := fun h => by omega
      by_cases hin : i + 1 ≤ j ∧ j < i + 1 + n
      · rw [if_pos hin, if_pos (by omega), Function.update_of_ne (hoff hin.1)]
      · rw [if_neg hin, if_neg (by omega), Function.update_of_ne hj]

/-- The stretch that is copied is at the front then. -/
theorem readBuf_copyDown (off n : ℕ) (buf : ℕ → α) :
    readBuf (copyDown off n 0 buf) 0 n = readBuf buf off n := by
  apply readBuf_congr
  intro i hi
  rw [copyDown_apply, if_pos (by omega), Nat.zero_add]

/-- **A stretch copied to the front with a list written behind it.** -/
theorem readBuf_copyDown_write (off n : ℕ) (buf : ℕ → α) (l : List α) :
    readBuf (write (copyDown off n 0 buf) n l) 0 (l.length + n) = readBuf buf off n ++ l := by
  rw [Nat.add_comm l.length n, readBuf_add, readBuf_write_below _ _ _ (by omega), readBuf_copyDown,
    Nat.zero_add, readBuf_write]

/-- The byte at a place of a list, and what stands behind it. -/
theorem drop_eq_cons {l rest : List α} {i : ℕ} {a : α} (h : l.drop i = a :: rest) :
    l.length = i + 1 + rest.length ∧ l[i]? = some a ∧ l.drop (i + 1) = rest := by
  have hlength := congrArg List.length h
  rw [List.length_drop, List.length_cons] at hlength
  refine ⟨by omega, ?_, ?_⟩
  · have hget : (l.drop i)[0]? = l[i + 0]? := List.getElem?_drop
    rw [h] at hget
    exact hget.symm
  · rw [← List.drop_drop, h, List.drop_one, List.tail_cons]

end Buffer
