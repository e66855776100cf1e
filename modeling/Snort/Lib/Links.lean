import Mathlib.Tactic

/-!
# Intrusive doubly linked lists

Cells hold the links of a doubly linked list; a null pointer is `none`.

* `Links`: the two links of every cell; `link`, `unlink`: what takes a cell in and out.
* `Seg`: cells linked in the order of a list, between two pointers.
* `Holds`: a whole list; **`Holds.link`**, **`Holds.unlink`**: what the operations do to it, and
  `Holds.congr`: cells that are not written keep it.
* `Family`: disjoint lists over the same cells; **`Family.link`**, **`Family.unlink`**: a cell moves
  in front of one of them, and out of it.
-/

/-- The links of the cells. -/
structure Links (ι : Type*) where
  next : ι → Option ι
  prev : ι → Option ι

namespace Links

variable {ι : Type*}

section Operations

variable [DecidableEq ι]

def setNext (k : Links ι) (x : ι) (v : Option ι) : Links ι :=
  { k with next := Function.update k.next x v }

def setPrev (k : Links ι) (x : ι) (v : Option ι) : Links ι :=
  { k with prev := Function.update k.prev x v }

/-- A write through a pointer that may be null. -/
def setNextOf (k : Links ι) (p v : Option ι) : Links ι := p.elim k fun x => k.setNext x v

/-- A write through a pointer that may be null. -/
def setPrevOf (k : Links ι) (p v : Option ι) : Links ι := p.elim k fun x => k.setPrev x v

/-- A cell is linked in between two pointers. -/
def link (k : Links ι) (p : Option ι) (x : ι) (n : Option ι) : Links ι :=
  (((k.setNext x n).setPrev x p).setNextOf p (some x)).setPrevOf n (some x)

/-- The neighbours of a cell are linked to each other. -/
def unlink (k : Links ι) (x : ι) : Links ι :=
  (k.setNextOf (k.prev x) (k.next x)).setPrevOf (k.next x) (k.prev x)

section Fields

variable (k : Links ι) (x y : ι) (p n v : Option ι)

@[simp] theorem setNext_prev : (k.setNext x v).prev = k.prev := rfl

@[simp] theorem setPrev_next : (k.setPrev x v).next = k.next := rfl

@[simp] theorem setNext_next_self : (k.setNext x v).next x = v := Function.update_self _ _ _

@[simp] theorem setPrev_prev_self : (k.setPrev x v).prev x = v := Function.update_self _ _ _

@[simp] theorem setNextOf_prev : (k.setNextOf p v).prev = k.prev := by
  cases p <;> rfl

@[simp] theorem setPrevOf_next : (k.setPrevOf p v).next = k.next := by
  cases p <;> rfl

variable {k x y p n v}

theorem setNext_next_of_ne (h : y ≠ x) : (k.setNext x v).next y = k.next y :=
  Function.update_of_ne h _ _

theorem setPrev_prev_of_ne (h : y ≠ x) : (k.setPrev x v).prev y = k.prev y :=
  Function.update_of_ne h _ _

theorem setNextOf_next_of_ne (h : p ≠ some y) : (k.setNextOf p v).next y = k.next y := by
  cases p with
  | none => rfl
  | some x => exact setNext_next_of_ne fun hyx => h (congrArg some hyx.symm)

theorem setPrevOf_prev_of_ne (h : p ≠ some y) : (k.setPrevOf p v).prev y = k.prev y := by
  cases p with
  | none => rfl
  | some x => exact setPrev_prev_of_ne fun hyx => h (congrArg some hyx.symm)

end Fields

end Operations

/-! ### Segments -/

/-- The cells of a list are linked in its order, behind a pointer and in front of another. -/
def Seg (k : Links ι) : Option ι → List ι → Option ι → Prop
  | _, [], _ => True
  | p, x :: l, n => k.prev x = p ∧ k.next x = l.head?.or n ∧ Seg k (some x) l n

variable {k k' : Links ι} {p n : Option ι}

theorem Seg.congr {l : List ι} (h : Seg k p l n)
    (hcell : ∀ x ∈ l, k'.next x = k.next x ∧ k'.prev x = k.prev x) : Seg k' p l n := by
  induction l generalizing p with
  | nil => trivial
  | cons x l ih =>
    obtain ⟨hprev, hnext, h⟩ := h
    obtain ⟨hnext', hprev'⟩ := hcell x List.mem_cons_self
    exact ⟨hprev'.trans hprev, hnext'.trans hnext, ih h fun y hy => hcell y (List.mem_cons_of_mem _ hy)⟩

theorem seg_append {a b : List ι} :
    Seg k p (a ++ b) n ↔ Seg k p a (b.head?.or n) ∧ Seg k (a.getLast?.or p) b n := by
  induction a generalizing p with
  | nil => exact ⟨fun h => ⟨trivial, h⟩, fun h => h.2⟩
  | cons x a ih =>
    have hhead : (a ++ b).head?.or n = a.head?.or (b.head?.or n) := by
      rw [List.head?_append, Option.or_assoc]
    have hlast : (x :: a).getLast?.or p = a.getLast?.or (some x) := by
      rw [List.getLast?_cons]
      cases a.getLast? <;> rfl
    rw [List.cons_append, Seg, Seg, ih, hhead, hlast, and_assoc, and_assoc]

/-! ### Lists -/

/-- The cells of a list are linked in its order. -/
structure Holds (k : Links ι) (l : List ι) : Prop where
  nodup : l.Nodup
  seg : Seg k none l none

theorem holds_nil (k : Links ι) : Holds k [] := ⟨List.nodup_nil, trivial⟩

/-- The links of a cell of a list. -/
theorem Holds.cell {a b : List ι} {x : ι} (h : Holds k (a ++ x :: b)) :
    k.next x = b.head? ∧ k.prev x = a.getLast? := by
  obtain ⟨-, hprev, hnext, -⟩ := seg_append.1 h.seg
  rw [Option.or_none] at hprev hnext
  exact ⟨hnext, hprev⟩

/-- Cells that are not written keep a list. -/
theorem Holds.congr {l : List ι} (h : Holds k l)
    (hcell : ∀ x ∈ l, k'.next x = k.next x ∧ k'.prev x = k.prev x) : Holds k' l :=
  ⟨h.nodup, h.seg.congr hcell⟩

theorem Seg.eq {l l' : List ι} {q : Option ι} (h : Seg k p l none) (h' : Seg k q l' none)
    (hhead : l.head? = l'.head?) : l = l' := by
  induction l generalizing p q l' with
  | nil =>
    cases l' with
    | nil => rfl
    | cons y l' => simp at hhead
  | cons x l ih =>
    cases l' with
    | nil => simp at hhead
    | cons y l' =>
      obtain rfl : x = y := Option.some.inj hhead
      obtain ⟨-, hnext, hrest⟩ := h
      obtain ⟨-, hnext', hrest'⟩ := h'
      rw [Option.or_none] at hnext hnext'
      rw [ih hrest hrest' (hnext.symm.trans hnext')]

/-- The links and the head determine the list. -/
theorem Holds.eq {l l' : List ι} (h : Holds k l) (h' : Holds k l') (hhead : l.head? = l'.head?) : l = l' :=
  h.seg.eq h'.seg hhead

variable [DecidableEq ι]

/-- The pointer behind a segment is changed. -/
theorem Seg.setNextOf {l : List ι} (h : Seg k p l n) (hnd : l.Nodup) (n' : Option ι) :
    Seg (k.setNextOf l.getLast? n') p l n' := by
  rcases List.eq_nil_or_concat l with rfl | ⟨a, y, rfl⟩
  · trivial
  · rw [List.concat_eq_append] at h hnd ⊢
    rw [List.getLast?_concat]
    obtain ⟨ha, hprev, -, -⟩ := seg_append.1 h
    have hy : y ∉ a := fun hy => (List.nodup_append.1 hnd).2.2 y hy y (List.mem_singleton_self y) rfl
    refine seg_append.2 ⟨ha.congr fun z hz => ⟨setNext_next_of_ne ?_, rfl⟩, hprev, ?_, trivial⟩
    · rintro rfl
      exact hy hz
    · exact setNext_next_self _ _ _

/-- The pointer in front of a segment is changed. -/
theorem Seg.setPrevOf {l : List ι} (h : Seg k p l n) (hnd : l.Nodup) (p' : Option ι) :
    Seg (k.setPrevOf l.head? p') p' l n := by
  cases l with
  | nil => trivial
  | cons y b =>
    obtain ⟨-, hnext, hb⟩ := h
    refine ⟨setPrev_prev_self _ _ _, hnext, hb.congr fun z hz => ⟨rfl, setPrev_prev_of_ne ?_⟩⟩
    rintro rfl
    exact (List.nodup_cons.1 hnd).1 hz

theorem link_cell {a b : List ι} {x y : ι} (hx : y ≠ x) (ha : y ∉ a) (hb : y ∉ b) :
    (k.link a.getLast? x b.head?).next y = k.next y ∧
      (k.link a.getLast? x b.head?).prev y = k.prev y := by
  have hlast : a.getLast? ≠ some y := fun h => ha (List.mem_of_getLast? h)
  have hhead : b.head? ≠ some y := fun h => hb (List.mem_of_mem_head? h)
  constructor
  · rw [link, setPrevOf_next, setNextOf_next_of_ne hlast, setPrev_next, setNext_next_of_ne hx]
  · rw [link, setPrevOf_prev_of_ne hhead, setNextOf_prev, setPrev_prev_of_ne hx, setNext_prev]

/-- **A cell is taken in.** -/
theorem Holds.link {a b : List ι} {x : ι} (h : Holds k (a ++ b)) (hx : x ∉ a ++ b) :
    Holds (k.link a.getLast? x b.head?) (a ++ x :: b) := by
  have hxa : x ∉ a := fun hmem => hx (List.mem_append_left _ hmem)
  have hxb : x ∉ b := fun hmem => hx (List.mem_append_right _ hmem)
  obtain ⟨hnda, hndb, hdisj⟩ := List.nodup_append.1 h.nodup
  have hnd : (a ++ x :: b).Nodup :=
    List.nodup_middle.2 (List.nodup_cons.2 ⟨hx, h.nodup⟩)
  have hlast : a.getLast? ≠ some x := fun h' => hxa (List.mem_of_getLast? h')
  have hhead : b.head? ≠ some x := fun h' => hxb (List.mem_of_mem_head? h')
  have hne : ∀ {l : List ι}, x ∉ l → ∀ z ∈ l, z ≠ x := fun hl z hz hzx => hl (hzx ▸ hz)
  obtain ⟨hsa, hsb⟩ := seg_append.1 h.seg
  rw [Option.or_none] at hsa hsb
  refine ⟨hnd, seg_append.2 ⟨?_, ?_, ?_, ?_⟩⟩
  · have hfresh : Seg ((k.setNext x b.head?).setPrev x a.getLast?) none a b.head? :=
      hsa.congr fun z hz =>
        ⟨setNext_next_of_ne (hne hxa z hz), setPrev_prev_of_ne (hne hxa z hz)⟩
    refine (hfresh.setNextOf hnda (some x)).congr fun z hz => ⟨?_, setPrevOf_prev_of_ne fun hz' => ?_⟩
    · rw [Links.link, setPrevOf_next]
    · exact hdisj z hz z (List.mem_of_mem_head? hz') rfl
  · rw [Links.link, setPrevOf_prev_of_ne hhead, setNextOf_prev, setPrev_prev_self, Option.or_none]
  · rw [Links.link, setPrevOf_next, setNextOf_next_of_ne hlast, setPrev_next, setNext_next_self,
      Option.or_none]
  · have hfresh : Seg (((k.setNext x b.head?).setPrev x a.getLast?).setNextOf a.getLast? (some x))
        a.getLast? b none :=
      hsb.congr fun z hz =>
        ⟨(setNextOf_next_of_ne fun hz' => hdisj z (List.mem_of_getLast? hz') z hz rfl).trans
          (setNext_next_of_ne (hne hxb z hz)),
          (congrFun (setNextOf_prev _ _ _) z).trans (setPrev_prev_of_ne (hne hxb z hz))⟩
    exact hfresh.setPrevOf hndb (some x)

theorem Holds.unlink_eq {a b : List ι} {x : ι} (h : Holds k (a ++ x :: b)) :
    k.unlink x = (k.setNextOf a.getLast? b.head?).setPrevOf b.head? a.getLast? := by
  rw [Links.unlink, h.cell.1, h.cell.2]

theorem unlink_cell {a b : List ι} {x y : ι} (h : Holds k (a ++ x :: b)) (ha : y ∉ a) (hb : y ∉ b) :
    (k.unlink x).next y = k.next y ∧ (k.unlink x).prev y = k.prev y := by
  have hlast : a.getLast? ≠ some y := fun h => ha (List.mem_of_getLast? h)
  have hhead : b.head? ≠ some y := fun h => hb (List.mem_of_mem_head? h)
  rw [h.unlink_eq]
  constructor
  · rw [setPrevOf_next, setNextOf_next_of_ne hlast]
  · rw [setPrevOf_prev_of_ne hhead, setNextOf_prev]

/-- **A cell is taken out.** -/
theorem Holds.unlink {a b : List ι} {x : ι} (h : Holds k (a ++ x :: b)) :
    Holds (k.unlink x) (a ++ b) := by
  obtain ⟨hnda, hndxb, hdisj⟩ := List.nodup_append.1 h.nodup
  have hndb := (List.nodup_cons.1 hndxb).2
  have hdisj' : ∀ z ∈ a, z ∉ b := fun z hz hz' => hdisj z hz z (List.mem_cons_of_mem _ hz') rfl
  obtain ⟨hsa, -, -, hsb⟩ := seg_append.1 h.seg
  rw [h.unlink_eq]
  refine ⟨List.nodup_append.2 ⟨hnda, hndb, fun z hz w hw hzw => hdisj' z hz (hzw ▸ hw)⟩,
    seg_append.2 ⟨?_, ?_⟩⟩
  · rw [Option.or_none]
    refine (hsa.setNextOf hnda b.head?).congr fun z hz => ⟨?_, setPrevOf_prev_of_ne fun hz' => ?_⟩
    · rw [setPrevOf_next]
    · exact hdisj' z hz (List.mem_of_mem_head? hz')
  · rw [Option.or_none]
    have hfresh : Seg (k.setNextOf a.getLast? b.head?) (some x) b none :=
      hsb.congr fun z hz =>
        ⟨setNextOf_next_of_ne fun hz' => hdisj' z (List.mem_of_getLast? hz') hz,
          congrFun (setNextOf_prev _ _ _) z⟩
    exact hfresh.setPrevOf hndb a.getLast?

/-! ### Several lists -/

/-- Disjoint lists over the same cells. -/
structure Family {κ : Type*} (k : Links ι) (lists : κ → List ι) : Prop where
  holds : ∀ r, Holds k (lists r)
  disjoint : ∀ {r r' x}, x ∈ lists r → x ∈ lists r' → r = r'

omit [DecidableEq ι] in
theorem family_nil {κ : Type*} (k : Links ι) : Family k fun _ : κ => ([] : List ι) :=
  ⟨fun _ => holds_nil k, fun hx => absurd hx List.not_mem_nil⟩

theorem exists_append_of_mem {l : List ι} (hnd : l.Nodup) {x : ι} (hx : x ∈ l) :
    ∃ a b, l = a ++ x :: b ∧ l.erase x = a ++ b := by
  obtain ⟨a, b, rfl⟩ := List.append_of_mem hx
  have hxa : x ∉ a := fun hmem =>
    (List.nodup_append.1 hnd).2.2 x hmem x List.mem_cons_self rfl
  exact ⟨a, b, rfl, by rw [List.erase_append_right _ hxa, List.erase_cons_head]⟩

section Family

variable {κ : Type*} [DecidableEq κ] {lists : κ → List ι}

/-- **A cell is taken in at the front of a list.** -/
theorem Family.link (h : Family k lists) {x : ι} (hx : ∀ r, x ∉ lists r) (r : κ) :
    Family (k.link none x (lists r).head?) (Function.update lists r (x :: lists r)) := by
  have hmem : ∀ {r' y}, y ∈ Function.update lists r (x :: lists r) r' →
      (y = x ∧ r' = r) ∨ y ∈ lists r' := by
    intro r' y hy
    by_cases hr : r' = r
    · subst hr
      rw [Function.update_self] at hy
      exact (List.mem_cons.1 hy).imp_left fun hyx => ⟨hyx, rfl⟩
    · rw [Function.update_of_ne hr] at hy
      exact .inr hy
  refine ⟨fun r' => ?_, fun {r₁ r₂ y} hy₁ hy₂ => ?_⟩
  · by_cases hr : r' = r
    · subst hr
      rw [Function.update_self]
      have hhead : Holds k ([] ++ lists r') := h.holds r'
      exact hhead.link (hx r')
    · rw [Function.update_of_ne hr]
      refine (h.holds r').congr fun y hy => ?_
      have hyx : y ≠ x := fun hyx => hx r' (hyx ▸ hy)
      exact link_cell (a := []) hyx List.not_mem_nil fun hy' => hr (h.disjoint hy hy')
  · rcases hmem hy₁ with ⟨rfl, rfl⟩ | hold₁
    · rcases hmem hy₂ with ⟨-, rfl⟩ | hold₂
      · rfl
      · exact absurd hold₂ (hx r₂)
    · rcases hmem hy₂ with ⟨rfl, -⟩ | hold₂
      · exact absurd hold₁ (hx r₁)
      · exact h.disjoint hold₁ hold₂

/-- **A cell is taken out of its list.** -/
theorem Family.unlink (h : Family k lists) {x : ι} {r : κ} (hx : x ∈ lists r) :
    Family (k.unlink x) (Function.update lists r ((lists r).erase x)) := by
  obtain ⟨a, b, hab, herase⟩ := exists_append_of_mem (h.holds r).nodup hx
  have hr : Holds k (a ++ x :: b) := hab ▸ h.holds r
  have hmem : ∀ {r' y}, y ∈ Function.update lists r ((lists r).erase x) r' → y ∈ lists r' := by
    intro r' y hy
    by_cases hr : r' = r
    · subst hr
      rw [Function.update_self] at hy
      exact List.mem_of_mem_erase hy
    · rwa [Function.update_of_ne hr] at hy
  refine ⟨fun r' => ?_, fun hy₁ hy₂ => h.disjoint (hmem hy₁) (hmem hy₂)⟩
  by_cases hr' : r' = r
  · subst hr'
    rw [Function.update_self, herase]
    exact hr.unlink
  · rw [Function.update_of_ne hr']
    refine (h.holds r').congr fun y hy => unlink_cell hr ?_ ?_
    · exact fun hya => hr' (h.disjoint hy (hab ▸ List.mem_append_left _ hya))
    · exact fun hyb =>
        hr' (h.disjoint hy (hab ▸ List.mem_append_right _ (List.mem_cons_of_mem x hyb)))

end Family

end Links
