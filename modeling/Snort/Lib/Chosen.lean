import Mathlib.Tactic

/-!
# The first entries of a history, by a strict weak order

* `Before`: an entry of a history comes before another: it is less, or it is not greater and earlier;
* `Chosen`: at most `n` entries, in this order, that come before all others;
* `Placed`: where a new entry comes in a list of entries;
* **`Chosen.insert`**, **`Chosen.drop`**, **`Chosen.replace`**: a new entry is put in its place, is left out, or
  takes the place of the last one.
-/

namespace Selection

variable {α : Type*}

/-- What is not less is carried on. -/
theorem not_lt_trans_of_weakOrder {r : α → α → Prop} [IsStrictWeakOrder α r] {a b c : α} (hab : ¬r a b)
    (hbc : ¬r b c) : ¬r a c := by
  intro hac
  by_cases hba : r b a
  · exact hbc (IsTrans.trans b a c hba hac)
  · by_cases hcb : r c b
    · exact hab (IsTrans.trans a c b hac hcb)
    · exact (IsStrictWeakOrder.incomp_trans a b c ⟨hab, hba⟩ ⟨hbc, hcb⟩).1 hac

/-- An entry comes before another: it is less, or it is not greater and earlier. -/
def Before (r : α → α → Prop) (hist : List α) (i j : ℕ) : Prop :=
  ∃ x y, hist[i]? = some x ∧ hist[j]? = some y ∧ (r x y ∨ (¬r y x ∧ i < j))

/-- At most `n` entries, in the order, that come before all others; all entries if there are fewer. -/
structure Chosen (r : α → α → Prop) (n : ℕ) (hist : List α) (ids : List ℕ) : Prop where
  ordered : ids.Pairwise (Before r hist)
  range : ∀ i ∈ ids, i < hist.length
  le : ids.length ≤ n
  all : ids.length < n → ∀ j < hist.length, j ∈ ids
  best : ∀ i ∈ ids, ∀ j < hist.length, j ∉ ids → Before r hist i j

section Before

variable {r : α → α → Prop} {hist : List α} {i j k : ℕ} {e : α}

theorem Before.append (h : Before r hist i j) : Before r (hist ++ [e]) i j := by
  obtain ⟨x, y, hx, hy, hxy⟩ := h
  refine ⟨x, y, ?_, ?_, hxy⟩
  · rw [List.getElem?_append_left (List.getElem?_eq_some_iff.1 hx).1, hx]
  · rw [List.getElem?_append_left (List.getElem?_eq_some_iff.1 hy).1, hy]

theorem getElem?_append_self : (hist ++ [e])[hist.length]? = some e := by
  rw [List.getElem?_append_right le_rfl, Nat.sub_self, List.getElem?_cons_zero]

/-- An entry that is not less comes behind. -/
theorem before_new {x : α} (hi : hist[i]? = some x) (h : ¬r e x) : Before r (hist ++ [e]) i hist.length := by
  have hlt := (List.getElem?_eq_some_iff.1 hi).1
  refine ⟨x, e, ?_, getElem?_append_self, Or.inr ⟨h, hlt⟩⟩
  rw [List.getElem?_append_left hlt, hi]

/-- An entry that is less comes in front. -/
theorem new_before {x : α} (hi : hist[i]? = some x) (h : r e x) : Before r (hist ++ [e]) hist.length i := by
  refine ⟨e, x, getElem?_append_self, ?_, Or.inl h⟩
  rw [List.getElem?_append_left (List.getElem?_eq_some_iff.1 hi).1, hi]

variable [IsStrictWeakOrder α r]

/-- What is less than an entry is less than those behind it. -/
theorem Before.lt_of_lt (h : Before r hist i j) {x : α} (hi : hist[i]? = some x) (hlt : r e x) :
    ∃ y, hist[j]? = some y ∧ r e y := by
  obtain ⟨x', y, hx, hy, hxy⟩ := h
  obtain rfl : x = x' := Option.some.inj (hi.symm.trans hx)
  refine ⟨y, hy, ?_⟩
  rcases hxy with hxy | ⟨hyx, -⟩
  · exact IsTrans.trans e x y hlt hxy
  · by_contra hey
    exact not_lt_trans_of_weakOrder hey hyx hlt

/-- What is not less than an entry is not less than those in front of it. -/
theorem Before.not_lt_of_not_lt (h : Before r hist i j) {y : α} (hj : hist[j]? = some y) (hnot : ¬r e y) :
    ∃ x, hist[i]? = some x ∧ ¬r e x := by
  obtain ⟨x, y', hx, hy, hxy⟩ := h
  exact ⟨x, hx, fun hex => hnot (by
    obtain ⟨y'', hy'', hlt⟩ := Before.lt_of_lt ⟨x, y', hx, hy, hxy⟩ hx hex
    obtain rfl : y = y'' := Option.some.inj (hj.symm.trans hy'')
    exact hlt)⟩

end Before

/-! ### A new entry -/

/-- Where a new entry comes: behind entries that it is not less than, and in front of one that it is less
than, or at the end. -/
structure Placed (r : α → α → Prop) (hist : List α) (e : α) (front back : List ℕ) : Prop where
  not_lt : ∀ i ∈ front, ∃ x, hist[i]? = some x ∧ ¬r e x
  lt : ∀ i, back.head? = some i → ∃ x, hist[i]? = some x ∧ r e x

section New

variable {r : α → α → Prop} [IsStrictWeakOrder α r] {n : ℕ} {hist : List α} {e : α} {ids front back : List ℕ}
  {l : ℕ}

theorem Placed.lt_back (h : Placed r hist e front back) (hordered : back.Pairwise (Before r hist)) :
    ∀ j ∈ back, ∃ y, hist[j]? = some y ∧ r e y := by
  cases back with
  | nil => exact fun j hj => absurd hj List.not_mem_nil
  | cons i back =>
    obtain ⟨x, hx, hlt⟩ := h.lt i rfl
    rintro j hj
    rcases List.mem_cons.1 hj with rfl | hj
    · exact ⟨x, hx, hlt⟩
    · exact ((List.pairwise_cons.1 hordered).1 j hj).lt_of_lt hx hlt

/-- The order with the new entry. -/
theorem Placed.ordered (h : Placed r hist e front back) (hordered : (front ++ back).Pairwise (Before r hist)) :
    (front ++ hist.length :: back).Pairwise (Before r (hist ++ [e])) := by
  obtain ⟨hfront, hback, hcross⟩ := List.pairwise_append.1 hordered
  have hbefore := h.lt_back hback
  refine List.pairwise_append.2 ⟨hfront.imp Before.append, List.pairwise_cons.2 ⟨fun j hj => ?_,
    hback.imp Before.append⟩, fun i hi j hj => ?_⟩
  · obtain ⟨y, hy, hlt⟩ := hbefore j hj
    exact new_before hy hlt
  · rcases List.mem_cons.1 hj with rfl | hj
    · obtain ⟨x, hx, hnot⟩ := h.not_lt i hi
      exact before_new hx hnot
    · exact (hcross i hi j hj).append

theorem mem_insert_iff {i : ℕ} : i ∈ front ++ hist.length :: back ↔ i = hist.length ∨ i ∈ front ++ back := by
  rw [List.mem_append, List.mem_cons, List.mem_append, or_left_comm]

/-- **A new entry is put in its place** while there is room. -/
theorem Chosen.insert (h : Chosen r n hist (front ++ back)) (hplaced : Placed r hist e front back)
    (hroom : (front ++ back).length < n) : Chosen r n (hist ++ [e]) (front ++ hist.length :: back) := by
  have hall := h.all hroom
  have hlen : (hist ++ [e]).length = hist.length + 1 := by rw [List.length_append, List.length_singleton]
  have hmem : ∀ j < (hist ++ [e]).length, j ∈ front ++ hist.length :: back := by
    intro j hj
    rw [hlen] at hj
    rw [mem_insert_iff]
    rcases Nat.lt_succ_iff_lt_or_eq.1 hj with hlt | rfl
    · exact Or.inr (hall j hlt)
    · exact Or.inl rfl
  refine ⟨hplaced.ordered h.ordered, fun i hi => ?_, ?_, fun _ => hmem, fun i _ j hj hnot => absurd (hmem j hj) hnot⟩
  · rw [hlen]
    rcases mem_insert_iff.1 hi with rfl | hi
    · exact Nat.lt_succ_self _
    · exact Nat.lt_succ_of_lt (h.range i hi)
  · rw [List.length_append, List.length_cons] at *
    omega

/-- **A new entry is left out** that is not less than the last one. -/
theorem Chosen.drop (h : Chosen r n hist (ids ++ [l])) (hfull : (ids ++ [l]).length = n) {y : α}
    (hl : hist[l]? = some y) (hnot : ¬r e y) : Chosen r n (hist ++ [e]) (ids ++ [l]) := by
  have hlen : (hist ++ [e]).length = hist.length + 1 := by rw [List.length_append, List.length_singleton]
  have hcross := (List.pairwise_append.1 h.ordered).2.2
  refine ⟨h.ordered.imp Before.append, fun i hi => ?_, h.le, fun hroom => absurd hfull hroom.ne,
    fun i hi j hj hj' => ?_⟩
  · rw [hlen]
    exact Nat.lt_succ_of_lt (h.range i hi)
  · rw [hlen] at hj
    rcases Nat.lt_succ_iff_lt_or_eq.1 hj with hlt | rfl
    · exact (h.best i hi j hlt hj').append
    · rcases List.mem_append.1 hi with hi | hi
      · obtain ⟨x, hx, hnot'⟩ := (hcross i hi l (List.mem_singleton_self l)).not_lt_of_not_lt hl hnot
        exact before_new hx hnot'
      · obtain rfl := List.mem_singleton.1 hi
        exact before_new hl hnot

/-- **A new entry takes the place of the last one**, if it is less. -/
theorem Chosen.replace (h : Chosen r n hist (front ++ back ++ [l])) (hplaced : Placed r hist e front back)
    (hfull : (front ++ back ++ [l]).length = n) {y : α} (hl : hist[l]? = some y) (hlt : r e y) :
    Chosen r n (hist ++ [e]) (front ++ hist.length :: back) := by
  obtain ⟨hordered, -, hcross⟩ := List.pairwise_append.1 h.ordered
  have hlen : (hist ++ [e]).length = hist.length + 1 := by rw [List.length_append, List.length_singleton]
  have hlength : (front ++ hist.length :: back).length = n := by
    rw [← hfull]
    simp only [List.length_append, List.length_cons, List.length_nil]
    omega
  refine ⟨hplaced.ordered hordered, fun i hi => ?_, hlength.le, fun hroom => absurd hlength hroom.ne,
    fun i hi j hj hj' => ?_⟩
  · rw [hlen]
    rcases mem_insert_iff.1 hi with rfl | hi
    · exact Nat.lt_succ_self _
    · exact Nat.lt_succ_of_lt (h.range i (List.mem_append_left _ hi))
  · rw [mem_insert_iff, not_or] at hj'
    have hjlt : j < hist.length := by
      rw [hlen] at hj
      omega
    rcases mem_insert_iff.1 hi with rfl | hi
    · by_cases hjl : j = l
      · subst hjl
        exact new_before hl hlt
      · have hbest := h.best l (List.mem_append_right _ (List.mem_singleton_self l)) j hjlt (by
          rw [List.mem_append, List.mem_singleton, not_or]
          exact ⟨hj'.2, hjl⟩)
        obtain ⟨z, hz, hez⟩ := hbest.lt_of_lt hl hlt
        exact new_before hz hez
    · by_cases hjl : j = l
      · subst hjl
        exact (hcross i hi j (List.mem_singleton_self j)).append
      · refine (h.best i (List.mem_append_left _ hi) j hjlt ?_).append
        rw [List.mem_append, List.mem_singleton, not_or]
        exact ⟨hj'.2, hjl⟩

end New

end Selection
