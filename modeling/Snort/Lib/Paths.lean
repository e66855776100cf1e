import Mathlib.Tactic

/-!
# Paths of segments

A path is a list of segments, each written behind a separator; `.` and `..` are segments of one and two
dots.

* `Paths.render` writes a path, and `splitOn_render` reads it back.
* `Paths.resolve` resolves the segments from left to right.  What `..` makes of the segments kept so far
  is a parameter: `List.dropLast` removes the last one.
* `names_resolve`: what is kept are names, if `..` only removes segments.
* `mem_of_infix`: what stands between two separators of a written path is one of its segments.
* **`not_infix_resolve`**: a resolved path has no `//`, `/./` and `/../`.
-/

namespace Paths

variable {α : Type*} (sep dot : α)

/-- The path as it is written. -/
def render (segs : List (List α)) : List α := segs.flatMap (sep :: ·)

@[simp] theorem render_nil : render sep [] = [] := rfl

@[simp] theorem render_cons (s : List α) (segs : List (List α)) :
    render sep (s :: segs) = sep :: (s ++ render sep segs) := rfl

@[simp] theorem render_append (xs ys : List (List α)) :
    render sep (xs ++ ys) = render sep xs ++ render sep ys := List.flatMap_append

theorem length_render (segs : List (List α)) :
    (render sep segs).length = (segs.map (·.length + 1)).sum := by
  rw [render, List.length_flatMap]
  rfl

variable [DecidableEq α]

/-- One segment that is not the last one. -/
def push (up : List (List α) → List (List α)) (kept : List (List α)) (s : List α) :
    List (List α) :=
  if s = [] ∨ s = [dot] then kept
  else if s = [dot, dot] then up kept
  else kept ++ [s]

/-- The segments from left to right; the last one is kept as it is. -/
def resolve (up : List (List α) → List (List α)) : List (List α) → List (List α) → List (List α)
  | kept, [] => kept
  | kept, [s] => kept ++ [s]
  | kept, s :: t :: segs => resolve up (push dot up kept s) (t :: segs)

section Resolve

variable {sep dot} {up : List (List α) → List (List α)} {kept : List (List α)}

theorem resolve_cons {segs : List (List α)} (hne : segs ≠ []) (s : List α) :
    resolve dot up kept (s :: segs) = resolve dot up (push dot up kept s) segs := by
  cases segs with
  | nil => exact absurd rfl hne
  | cons t segs => rfl

/-- A segment that is the name of a directory. -/
def Name (sep dot : α) (s : List α) : Prop :=
  s ≠ [] ∧ s ≠ [dot] ∧ s ≠ [dot, dot] ∧ sep ∉ s

theorem push_name {s : List α} (h : Name sep dot s) : push dot up kept s = kept ++ [s] := by
  rw [push, if_neg (not_or.2 ⟨h.1, h.2.1⟩), if_neg h.2.2.1]

theorem names_push (hup : ∀ kept, up kept ⊆ kept) (hkept : ∀ s ∈ kept, Name sep dot s)
    {s : List α} (hs : sep ∉ s) : ∀ t ∈ push dot up kept s, Name sep dot t := by
  intro t ht
  unfold push at ht
  split_ifs at ht with hdot hdots
  · exact hkept t ht
  · exact hkept t (hup kept ht)
  · rcases List.mem_append.1 ht with ht | ht
    · exact hkept t ht
    · obtain rfl := List.mem_singleton.1 ht
      exact ⟨fun h => hdot (.inl h), fun h => hdot (.inr h), hdots, hs⟩

/-- What is kept are names, besides the last segment. -/
theorem names_resolve (hup : ∀ kept, up kept ⊆ kept) {segs : List (List α)} (hne : segs ≠ [])
    (hkept : ∀ s ∈ kept, Name sep dot s) (hsegs : ∀ s ∈ segs, sep ∉ s) :
    ∃ names last, resolve dot up kept segs = names ++ [last] ∧
      (∀ s ∈ names, Name sep dot s) ∧ sep ∉ last := by
  induction segs generalizing kept with
  | nil => exact absurd rfl hne
  | cons s segs ih =>
    obtain ⟨hs, hsegs⟩ := List.forall_mem_cons.1 hsegs
    cases segs with
    | nil => exact ⟨kept, s, rfl, hkept, hs⟩
    | cons t segs =>
      rw [resolve_cons (List.cons_ne_nil t segs)]
      exact ih (List.cons_ne_nil t segs) (names_push hup hkept hs) hsegs

theorem resolve_ne_nil {segs : List (List α)} (hne : segs ≠ []) :
    resolve dot up kept segs ≠ [] := by
  induction segs generalizing kept with
  | nil => exact absurd rfl hne
  | cons s segs ih =>
    cases segs with
    | nil => exact List.concat_ne_nil s kept
    | cons t segs => exact ih (List.cons_ne_nil t segs)

/-- Names in front of the other segments are kept. -/
theorem resolve_names (names : List (List α)) (hnames : ∀ s ∈ names, Name sep dot s)
    {segs : List (List α)} (hne : segs ≠ []) :
    resolve dot up kept (names ++ segs) = resolve dot up (kept ++ names) segs := by
  induction names generalizing kept with
  | nil => rw [List.nil_append, List.append_nil]
  | cons s names ih =>
    obtain ⟨hs, hnames⟩ := List.forall_mem_cons.1 hnames
    rw [List.cons_append, resolve_cons (List.append_ne_nil_of_right_ne_nil _ hne), push_name hs,
      ih hnames, List.append_assoc, List.singleton_append]

end Resolve

/-! ### Reading back -/

section Split

variable {sep}

theorem splitOn_append_render {s : List α} {segs : List (List α)} (hs : sep ∉ s)
    (hsegs : ∀ t ∈ segs, sep ∉ t) : (s ++ render sep segs).splitOn sep = s :: segs := by
  induction segs generalizing s with
  | nil => rw [render_nil, List.append_nil, List.splitOn_eq_singleton hs]
  | cons t segs ih =>
    obtain ⟨ht, hsegs⟩ := List.forall_mem_cons.1 hsegs
    rw [render_cons, List.splitOn_append_cons_self_of_not_mem hs, ih ht hsegs]

theorem splitOn_render {segs : List (List α)} (hsegs : ∀ t ∈ segs, sep ∉ t) :
    (render sep segs).splitOn sep = [] :: segs :=
  splitOn_append_render List.not_mem_nil hsegs

theorem not_mem_of_mem_splitOn {l s : List α} (hs : s ∈ l.splitOn sep) : sep ∉ s := by
  induction l generalizing s with
  | nil =>
    obtain rfl : s = [] := by simpa using hs
    exact List.not_mem_nil
  | cons c l ih =>
    rw [List.splitOn_cons_eq_if_modifyHead] at hs
    split_ifs at hs with hc
    · rcases List.mem_cons.1 hs with rfl | hs
      · exact List.not_mem_nil
      · exact ih hs
    · obtain ⟨t, ts, hsplit⟩ := List.exists_cons_of_ne_nil (List.splitOn_ne_nil sep l)
      rw [hsplit, List.modifyHead_cons] at hs
      rcases List.mem_cons.1 hs with rfl | hs
      · rw [List.mem_cons, not_or]
        exact ⟨fun h => hc (by simp [h]), ih (by rw [hsplit]; exact List.mem_cons_self)⟩
      · exact ih (by rw [hsplit]; exact List.mem_cons_of_mem t hs)

/-- What stands between two separators is a segment, and not the last one. -/
theorem mem_of_infix {segs : List (List α)} (hsegs : ∀ t ∈ segs, sep ∉ t) {x : List α}
    (hx : sep ∉ x) (h : sep :: (x ++ [sep]) <:+: render sep segs) : x ∈ segs.dropLast := by
  obtain ⟨a, b, hab⟩ := h
  have hsplit : ([] : List α) :: segs = a.splitOn sep ++ x :: b.splitOn sep := by
    rw [← splitOn_render hsegs, ← hab]
    simp only [List.append_assoc, List.cons_append, List.nil_append]
    rw [List.splitOn_append_cons_self, List.splitOn_append_cons_self_of_not_mem hx]
  obtain ⟨s, xs, ha⟩ := List.exists_cons_of_ne_nil (List.splitOn_ne_nil sep a)
  rw [ha, List.cons_append] at hsplit
  obtain ⟨-, rfl⟩ := List.cons.inj hsplit
  rw [List.dropLast_append_cons, List.dropLast_cons_of_ne_nil (List.splitOn_ne_nil sep b)]
  exact List.mem_append_right _ List.mem_cons_self

/-- A resolved path has no `//`, `/./` and `/../`. -/
theorem not_infix_resolve {dot : α} (hdot : sep ≠ dot) {up : List (List α) → List (List α)}
    (hup : ∀ kept, up kept ⊆ kept) {segs : List (List α)} (hne : segs ≠ [])
    (hsegs : ∀ s ∈ segs, sep ∉ s) {x : List α} (hx : x ∈ [[], [dot], [dot, dot]]) :
    ¬ sep :: (x ++ [sep]) <:+: render sep (resolve dot up [] segs) := by
  obtain ⟨names, last, hresolve, hnames, hlast⟩ := names_resolve hup hne
    (fun s hs => absurd hs List.not_mem_nil) hsegs
  have hkept : ∀ s ∈ names ++ [last], sep ∉ s := by
    intro s hs
    rcases List.mem_append.1 hs with hs | hs
    · exact (hnames s hs).2.2.2
    · rw [List.mem_singleton.1 hs]
      exact hlast
  have hxsep : sep ∉ x := by
    simp only [List.mem_cons, List.not_mem_nil, or_false] at hx
    rcases hx with rfl | rfl | rfl
    · exact List.not_mem_nil
    · simp [hdot]
    · simp [hdot]
  intro hin
  rw [hresolve] at hin
  have hmem := mem_of_infix hkept hxsep hin
  rw [List.dropLast_concat] at hmem
  obtain ⟨hnil, hself, htrav, -⟩ := hnames x hmem
  simp [hnil, hself, htrav] at hx

end Split

end Paths
