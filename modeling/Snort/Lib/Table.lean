import Mathlib.Tactic

/-!
# Tables

A table finds a value for each of finitely many keys, and lists these keys in the order in which they
were put in.

* `Table.insert` puts a value in, or replaces it; `Table.remove` takes a key out.
-/

/-- Values for the listed keys. -/
structure Table (κ α : Type*) where
  find : κ → Option α
  keys : List κ
  nodup : keys.Nodup
  mem_keys : ∀ k, k ∈ keys ↔ (find k).isSome

namespace Table

variable {κ α : Type*}

/-- The table without keys. -/
def empty : Table κ α := ⟨fun _ => none, [], List.nodup_nil, fun k => by simp⟩

@[simp] theorem find_empty (k : κ) : (empty : Table κ α).find k = none := rfl

variable [DecidableEq κ]

/-- The table with the value `a` for the key `k`. -/
def insert (t : Table κ α) (k : κ) (a : α) : Table κ α where
  find := Function.update t.find k (some a)
  keys := if k ∈ t.keys then t.keys else t.keys ++ [k]
  nodup := by
    by_cases hk : k ∈ t.keys
    · rw [if_pos hk]
      exact t.nodup
    · rw [if_neg hk]
      exact t.nodup.append (List.nodup_singleton k) (List.disjoint_singleton.2 hk)
  mem_keys := by
    intro j
    by_cases hj : j = k
    · subst hj
      rw [Function.update_self]
      by_cases hk : j ∈ t.keys
      · simp [hk]
      · simp [hk]
    · rw [Function.update_of_ne hj, ← t.mem_keys]
      by_cases hk : k ∈ t.keys
      · simp [hk]
      · simp [hk, hj]

/-- The table without the key `k`. -/
def remove (t : Table κ α) (k : κ) : Table κ α where
  find := Function.update t.find k none
  keys := t.keys.erase k
  nodup := t.nodup.erase k
  mem_keys := by
    intro j
    rw [t.nodup.mem_erase_iff]
    by_cases hj : j = k
    · subst hj
      simp
    · rw [Function.update_of_ne hj, ← t.mem_keys]
      simp [hj]

theorem find_insert (t : Table κ α) (k : κ) (a : α) :
    (t.insert k a).find = Function.update t.find k (some a) := rfl

@[simp] theorem find_insert_self (t : Table κ α) (k : κ) (a : α) : (t.insert k a).find k = some a :=
  Function.update_self ..

theorem find_insert_of_ne (t : Table κ α) {j k : κ} (a : α) (h : j ≠ k) :
    (t.insert k a).find j = t.find j := Function.update_of_ne h ..

@[simp] theorem find_remove_self (t : Table κ α) (k : κ) : (t.remove k).find k = none :=
  Function.update_self ..

theorem find_remove_of_ne (t : Table κ α) {j k : κ} (h : j ≠ k) :
    (t.remove k).find j = t.find j := Function.update_of_ne h ..

/-- What is left behind a removal was there before. -/
theorem find_of_find_remove {t : Table κ α} {j k : κ} {a : α} (h : (t.remove k).find j = some a) :
    j ≠ k ∧ t.find j = some a := by
  by_cases hj : j = k
  · subst hj
    rw [find_remove_self] at h
    cases h
  · exact ⟨hj, (find_remove_of_ne t hj).symm.trans h⟩

end Table
