import Mathlib.Tactic

/-!
# First occurrences

A list of entries with keys is read as a finite map in which the first entry of a key counts.

* `firsts key l`: the entries of `l` whose key no earlier entry has, in order;
* `nodup_firsts`, `mem_firsts_key`: every key has one of them;
* `find?_firsts`: a search by key finds the same entry in both lists.
-/

namespace Firsts

variable {α κ : Type*} [DecidableEq κ]

/-- One more entry, unless its key is there. -/
def addNew (key : α → κ) (l : List α) (a : α) : List α := if key a ∈ l.map key then l else l ++ [a]

/-- The first entry of each key. -/
def firsts (key : α → κ) (l : List α) : List α := l.foldl (addNew key) []

@[simp] theorem firsts_nil (key : α → κ) : firsts key [] = [] := rfl

@[simp] theorem firsts_concat (key : α → κ) (l : List α) (a : α) :
    firsts key (l ++ [a]) = addNew key (firsts key l) a := by
  simp [firsts]

theorem addNew_of_mem {key : α → κ} {l : List α} {a : α} (h : key a ∈ l.map key) :
    addNew key l a = l := if_pos h

theorem addNew_of_notMem {key : α → κ} {l : List α} {a : α} (h : key a ∉ l.map key) :
    addNew key l a = l ++ [a] := if_neg h

/-- An entry of the key `k`. -/
def find? (key : α → κ) (l : List α) (k : κ) : Option α := l.find? fun a => key a = k

theorem find?_isSome_iff (key : α → κ) (l : List α) (k : κ) :
    (find? key l k).isSome ↔ k ∈ l.map key := by
  simp [find?]

theorem find?_eq_none_iff (key : α → κ) (l : List α) (k : κ) :
    find? key l k = none ↔ k ∉ l.map key := by
  rw [← find?_isSome_iff, Option.not_isSome_iff_eq_none]

/-- An added entry is found under its own key, if nothing was. -/
theorem find?_concat (key : α → κ) (l : List α) (a : α) (k : κ) :
    find? key (l ++ [a]) k = (find? key l k).or (if key a = k then some a else none) := by
  simp only [find?, List.find?_append, List.find?_singleton, decide_eq_true_eq]

theorem find?_addNew (key : α → κ) (l : List α) (a : α) (k : κ) :
    find? key (addNew key l a) k = (find? key l k).or (if key a = k then some a else none) := by
  by_cases h : key a ∈ l.map key
  · rw [addNew_of_mem h]
    by_cases hk : key a = k
    · subst hk
      obtain ⟨b, hb⟩ := Option.isSome_iff_exists.1 ((find?_isSome_iff key l (key a)).2 h)
      simp [hb]
    · simp [hk]
  · rw [addNew_of_notMem h, find?_concat]

/-- A search by key finds the same entry among the first ones. -/
theorem find?_firsts (key : α → κ) (l : List α) (k : κ) :
    find? key (firsts key l) k = find? key l k := by
  induction l using List.reverseRecOn with
  | nil => rfl
  | append_singleton l a ih => rw [firsts_concat, find?_addNew, ih, find?_concat]

theorem mem_map_firsts (key : α → κ) (l : List α) (k : κ) :
    k ∈ (firsts key l).map key ↔ k ∈ l.map key := by
  rw [← find?_isSome_iff, ← find?_isSome_iff, find?_firsts]

theorem nodup_addNew {key : α → κ} {l : List α} (h : (l.map key).Nodup) (a : α) :
    ((addNew key l a).map key).Nodup := by
  by_cases ha : key a ∈ l.map key
  · rw [addNew_of_mem ha]
    exact h
  · rw [addNew_of_notMem ha, List.map_append]
    exact h.append (List.nodup_singleton _) (List.disjoint_singleton.2 ha)

/-- No key has two of them. -/
theorem nodup_firsts (key : α → κ) (l : List α) : ((firsts key l).map key).Nodup := by
  induction l using List.reverseRecOn with
  | nil => exact List.nodup_nil
  | append_singleton l a ih =>
    rw [firsts_concat]
    exact nodup_addNew ih a

theorem sublist_firsts (key : α → κ) (l : List α) : (firsts key l).Sublist l := by
  induction l using List.reverseRecOn with
  | nil => exact List.Sublist.slnil
  | append_singleton l a ih =>
    rw [firsts_concat, addNew]
    split
    · exact ih.trans (List.sublist_append_left l [a])
    · exact ih.append (List.Sublist.refl [a])

/-- One of them is the first entry of its key. -/
theorem find?_of_mem_firsts {key : α → κ} {l : List α} {a : α} (h : a ∈ firsts key l) :
    find? key l (key a) = some a := by
  rw [← find?_firsts]
  obtain ⟨b, hb⟩ := Option.isSome_iff_exists.1 ((find?_isSome_iff key _ (key a)).2 (List.mem_map_of_mem h))
  have hkey : key b = key a := by simpa using List.find?_some hb
  rw [hb, List.inj_on_of_nodup_map (nodup_firsts key l) (List.mem_of_find?_eq_some hb) h hkey]

end Firsts
