import Mathlib.Tactic

/-!
# Lists of disjoint intervals

Elements of `α` occupy the half-open interval from `lo` to `hi`.  A list is *tiled* when its
intervals follow one another without overlap, in list order.  The counting lemma `Tiled.full`
says that a tiled list within `[a, N)` whose lengths add up to `N - a` leaves no gap.
-/

namespace Tiling

variable {α : Type*} (lo hi : α → ℕ)

/-- Every element ends before the later ones start. -/
def Tiled (l : List α) : Prop := l.Pairwise fun a b => hi a ≤ lo b

/-- Position `x` lies in some interval of the list. -/
def Covers (l : List α) (x : ℕ) : Prop := ∃ n ∈ l, lo n ≤ x ∧ x < hi n

/-- The lengths of the intervals, added up. -/
def total (l : List α) : ℕ := (l.map fun n => hi n - lo n).sum

variable {lo hi}

@[simp] theorem covers_nil (x : ℕ) : ¬ Covers lo hi [] x := by simp [Covers]

@[simp] theorem covers_cons (n : α) (l : List α) (x : ℕ) :
    Covers lo hi (n :: l) x ↔ (lo n ≤ x ∧ x < hi n) ∨ Covers lo hi l x := by
  simp [Covers]

@[simp] theorem covers_append (l l' : List α) (x : ℕ) :
    Covers lo hi (l ++ l') x ↔ Covers lo hi l x ∨ Covers lo hi l' x := by
  simp [Covers, or_and_right, exists_or]

@[simp] theorem covers_reverse (l : List α) (x : ℕ) :
    Covers lo hi l.reverse x ↔ Covers lo hi l x := by simp [Covers]

@[simp] theorem total_nil : total lo hi ([] : List α) = 0 := rfl

@[simp] theorem total_cons (n : α) (l : List α) :
    total lo hi (n :: l) = (hi n - lo n) + total lo hi l := by simp [total]

@[simp] theorem total_append (l l' : List α) :
    total lo hi (l ++ l') = total lo hi l + total lo hi l' := by simp [total]

@[simp] theorem total_reverse (l : List α) : total lo hi l.reverse = total lo hi l := by
  rw [total, List.map_reverse, List.sum_reverse, total]

theorem tiled_append {l l' : List α} :
    Tiled lo hi (l ++ l') ↔
      Tiled lo hi l ∧ Tiled lo hi l' ∧ ∀ a ∈ l, ∀ b ∈ l', hi a ≤ lo b :=
  List.pairwise_append

theorem tiled_cons {n : α} {l : List α} :
    Tiled lo hi (n :: l) ↔ (∀ b ∈ l, hi n ≤ lo b) ∧ Tiled lo hi l :=
  List.pairwise_cons

/-- A new element fits between two parts of a tiled list. -/
theorem Tiled.insert {l l' : List α} {n : α} (h : Tiled lo hi (l ++ l'))
    (hl : ∀ a ∈ l, hi a ≤ lo n) (hr : ∀ b ∈ l', hi n ≤ lo b) : Tiled lo hi (l ++ n :: l') := by
  obtain ⟨h1, h2, h3⟩ := tiled_append.1 h
  refine tiled_append.2 ⟨h1, tiled_cons.2 ⟨hr, h2⟩, fun a ha b hb => ?_⟩
  rcases List.mem_cons.1 hb with rfl | hb
  · exact hl a ha
  · exact h3 a ha b hb

theorem Tiled.remove {l l' : List α} {n : α} (h : Tiled lo hi (l ++ n :: l')) :
    Tiled lo hi (l ++ l') :=
  List.Pairwise.sublist (List.Sublist.append_left (List.sublist_cons_self n l') l) h

/-- An element may be replaced by a part of itself. -/
theorem Tiled.shrink {l l' : List α} {n m : α} (h : Tiled lo hi (l ++ n :: l'))
    (h1 : lo n ≤ lo m) (h2 : hi m ≤ hi n) : Tiled lo hi (l ++ m :: l') := by
  obtain ⟨-, hn, hln⟩ := tiled_append.1 h
  refine h.remove.insert (fun a ha => ?_) (fun b hb => ?_)
  · exact (hln a ha n List.mem_cons_self).trans h1
  · exact h2.trans ((tiled_cons.1 hn).1 b hb)

/-- At most one element of a tiled list covers a position. -/
theorem Tiled.unique {l : List α} (h : Tiled lo hi l) {a b : α} (ha : a ∈ l) (hb : b ∈ l) {x : ℕ}
    (hax : lo a ≤ x ∧ x < hi a) (hbx : lo b ≤ x ∧ x < hi b) : a = b := by
  induction l with
  | nil => cases ha
  | cons n l ih =>
    obtain ⟨hn, hl⟩ := tiled_cons.1 h
    rcases List.mem_cons.1 ha with rfl | ha' <;> rcases List.mem_cons.1 hb with rfl | hb'
    · rfl
    · have := hn b hb'; omega
    · have := hn a ha'; omega
    · exact ih hl ha' hb'

/-- The lengths of a tiled list within `[a, N)` add up to at most `N - a`. -/
theorem Tiled.total_le {l : List α} (h : Tiled lo hi l) {a N : ℕ} (haN : a ≤ N)
    (hle : ∀ n ∈ l, lo n ≤ hi n) (hlo : ∀ n ∈ l, a ≤ lo n) (hhi : ∀ n ∈ l, hi n ≤ N) :
    total lo hi l ≤ N - a := by
  induction l generalizing a with
  | nil => simp
  | cons n l ih =>
    obtain ⟨hn, hl⟩ := tiled_cons.1 h
    have h1 := hle n List.mem_cons_self
    have h2 := hlo n List.mem_cons_self
    have h3 := hhi n List.mem_cons_self
    have := ih hl h3 (fun m hm => hle m (List.mem_cons_of_mem _ hm)) hn
      (fun m hm => hhi m (List.mem_cons_of_mem _ hm))
    rw [total_cons]
    omega

/-- A tiled list within `[a, N)` whose lengths add up to `N - a` leaves no gap. -/
theorem Tiled.full {l : List α} (h : Tiled lo hi l) {a N : ℕ}
    (hle : ∀ n ∈ l, lo n ≤ hi n) (hlo : ∀ n ∈ l, a ≤ lo n) (hhi : ∀ n ∈ l, hi n ≤ N)
    (ht : N - a ≤ total lo hi l) {x : ℕ} (hax : a ≤ x) (hxN : x < N) : Covers lo hi l x := by
  induction l generalizing a with
  | nil => rw [total_nil] at ht; omega
  | cons n l ih =>
    obtain ⟨hn, hl⟩ := tiled_cons.1 h
    have h1 := hle n List.mem_cons_self
    have h2 := hlo n List.mem_cons_self
    have h3 := hhi n List.mem_cons_self
    have hle' := fun m (hm : m ∈ l) => hle m (List.mem_cons_of_mem _ hm)
    have hhi' := fun m (hm : m ∈ l) => hhi m (List.mem_cons_of_mem _ hm)
    have hrest := hl.total_le h3 hle' hn hhi'
    rw [total_cons] at ht
    rw [covers_cons]
    by_cases hx : x < hi n
    · exact Or.inl ⟨by omega, hx⟩
    · exact Or.inr (ih hl hle' hn hhi' (by omega) (by omega))

end Tiling
