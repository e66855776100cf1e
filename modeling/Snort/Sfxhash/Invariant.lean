import Snort.Sfxhash.Pointers

/-!
# The representation invariant of a hash table

The rows are disjoint lists over `next` and `prev`, the nodes in use and the free nodes are disjoint
lists over `gnext` and `gprev`, and the nodes on the rows are those in use, each in the row of its
key.

* `Rep`: the invariant, for the lists of a `View`;
* `Rep.freeNode`, `Rep.insert`, `Rep.toFront`: what taking out, adding and moving a node do
  to the lists.
-/

namespace Snort.Sfxhash.Pointers

variable {K D : Type*}

/-- The two lists over `gnext` and `gprev`. -/
inductive Pool
  | used
  | free
  deriving DecidableEq

/-- The lists of a table. -/
structure View where
  row : ℕ → List ℕ
  used : List ℕ
  free : List ℕ

/-- The lists over `gnext` and `gprev`. -/
def View.glob (v : View) : Pool → List ℕ
  | .used => v.used
  | .free => v.free

theorem View.glob_update_used (v : View) (l : List ℕ) :
    Function.update v.glob .used l = { v with used := l }.glob := by
  funext p
  cases p <;> rfl

theorem View.glob_update_free (v : View) (l : List ℕ) :
    Function.update v.glob .free l = { v with free := l }.glob := by
  funext p
  cases p <;> rfl

/-- The representation invariant. -/
structure Rep (t : SfxHash K D) (v : View) : Prop where
  rows : Links.Family t.row v.row
  table : ∀ r, t.table r = (v.row r).head?
  globs : Links.Family t.glob v.glob
  ghead : t.ghead = v.used.head?
  gtail : t.gtail = v.used.getLast?
  fhead : t.fhead = v.free.head?
  ftail : t.ftail = v.free.getLast?
  mem_row : ∀ r x, x ∈ v.row r ↔ x ∈ v.used ∧ t.rindex x = r
  rindex : ∀ x ∈ v.used, t.rindex x = t.index (t.key x)
  key_inj : ∀ x ∈ v.used, ∀ y ∈ v.used, t.key x = t.key y → x = y
  used_lt : ∀ x ∈ v.used, x < t.brk
  free_lt : ∀ x ∈ v.free, x < t.brk
  count : t.count = v.used.length

/-! ### The list helpers -/

section Helpers

variable (t : SfxHash K D) {x : ℕ} {a b l : List ℕ}

theorem sfxhashGlinkNode_eq (hhead : t.ghead = l.head?) (htail : t.gtail = l.getLast?) :
    sfxhashGlinkNode t x = { t with
      glob := t.glob.link none x l.head?
      ghead := some x
      gtail := (x :: l).getLast? } := by
  cases l with
  | nil =>
    rw [sfxhashGlinkNode, hhead]
    rfl
  | cons y l =>
    rw [List.getLast?_cons_cons, ← htail, sfxhashGlinkNode, hhead]
    rfl

theorem sfxhashSaveFreeNode_eq (hhead : t.fhead = l.head?) (htail : t.ftail = l.getLast?) :
    sfxhashSaveFreeNode t x = { t with
      glob := t.glob.link none x l.head?
      fhead := some x
      ftail := (x :: l).getLast? } := by
  cases l with
  | nil =>
    rw [sfxhashSaveFreeNode, hhead]
    rfl
  | cons y l =>
    rw [List.getLast?_cons_cons, ← htail, sfxhashSaveFreeNode, hhead]
    rfl

theorem sfxhashLinkNode_eq (hhead : t.table (t.rindex x) = l.head?) :
    sfxhashLinkNode t x = { t with
      row := t.row.link none x l.head?
      table := Function.update t.table (t.rindex x) (some x) } := by
  cases l with
  | nil =>
    rw [sfxhashLinkNode, hhead]
    rfl
  | cons y l =>
    rw [sfxhashLinkNode, hhead]
    rfl

theorem setPrevOf_setPrevOf (k : Links ℕ) (p v : Option ℕ) :
    (k.setPrevOf p v).setPrevOf p v = k.setPrevOf p v := by
  cases p with
  | none => rfl
  | some y => exact congrArg (Links.mk k.next) (Function.update_idem _ _ _)

theorem sfxhashUnlinkNode_eq (h : t.row.Holds (a ++ x :: b))
    (hhead : t.table (t.rindex x) = (a ++ x :: b).head?) :
    sfxhashUnlinkNode t x = { t with
      row := t.row.unlink x
      table := Function.update t.table (t.rindex x) (a ++ b).head? } := by
  obtain ⟨hnext, hprev⟩ := h.cell
  have hnd := List.nodup_append.1 h.nodup
  have hxa : x ∉ a := fun hx => hnd.2.2 x hx x List.mem_cons_self rfl
  rw [sfxhashUnlinkNode]
  cases a with
  | nil =>
    -- the first node of its row
    have hfirst : t.table (t.rindex x) = some x := hhead
    have hnone : t.row.prev x = none := hprev
    simp only [hnone, hfirst, hnext, Links.unlink, Links.setNextOf, Option.elim, List.nil_append]
  | cons y a =>
    obtain ⟨w, hw⟩ : ∃ w, (y :: a).getLast? = some w :=
      Option.isSome_iff_exists.1 (List.getLast?_isSome.2 (List.cons_ne_nil y a))
    have hwx : x ≠ w := fun hxw => hxa (hxw ▸ List.mem_of_getLast? hw)
    have htable : Function.update t.table (t.rindex x) (some y) = t.table :=
      Function.update_eq_self_iff.2 hhead.symm
    have hcell : (t.row.setNext w (t.row.next x)).next x = t.row.next x :=
      Links.setNext_next_of_ne hwx
    rw [hw] at hprev
    simp only [hprev, hcell, Links.setNext_prev, Links.unlink, Links.setNextOf, Option.elim,
      List.cons_append, List.head?_cons, htable]

theorem sfxhashGunlinkNode_eq (h : t.glob.Holds (a ++ x :: b))
    (hhead : t.ghead = (a ++ x :: b).head?) (htail : t.gtail = (a ++ x :: b).getLast?) :
    sfxhashGunlinkNode t x = { t with
      glob := t.glob.unlink x
      ghead := (a ++ b).head?
      gtail := (a ++ b).getLast? } := by
  obtain ⟨hnext, hprev⟩ := h.cell
  have hnd := List.nodup_append.1 h.nodup
  have hxb : x ∉ b := (List.nodup_cons.1 hnd.2.1).1
  have hxa : x ∉ a := fun hx => hnd.2.2 x hx x List.mem_cons_self rfl
  have hnextx : b.head? ≠ some x := fun hx => hxb (List.mem_of_mem_head? hx)
  have hprevx : a.getLast? ≠ some x := fun hx => hxa (List.mem_of_getLast? hx)
  -- the tail moves back only if the node is the last one
  have htail' : (if t.gtail = some x then a.getLast? else t.gtail) = (a ++ b).getLast? := by
    rw [htail]
    cases b with
    | nil => simp
    | cons z b =>
      obtain ⟨w, hw⟩ : ∃ w, (z :: b).getLast? = some w :=
        Option.isSome_iff_exists.1 (List.getLast?_isSome.2 (List.cons_ne_nil z b))
      have hlast : (a ++ x :: z :: b).getLast? = some w := by simp [hw]
      have hlast' : (a ++ z :: b).getLast? = some w := by simp [hw]
      rw [hlast, hlast', if_neg]
      exact fun hx => hxb (List.mem_of_getLast? (hw.trans hx))
  rw [sfxhashGunlinkNode]
  cases a with
  | nil =>
    have hfirst : t.ghead = some x := hhead
    have hnone : t.glob.prev x = none := hprev
    have hcell : (t.glob.setPrevOf b.head? none).prev x = none :=
      (Links.setPrevOf_prev_of_ne hnextx).trans hnone
    have hunlink : t.glob.unlink x = t.glob.setPrevOf b.head? none := by
      rw [Links.unlink, hnone, hnext]
      rfl
    have hlast : (if t.gtail = some x then none else t.gtail) = b.getLast? := htail'
    simp only [hfirst, if_true, hnext, hcell, Links.setNextOf, Option.elim, Links.setPrevOf_next,
      setPrevOf_setPrevOf, hunlink, List.nil_append, hlast]
  | cons y a =>
    have hfirst : ¬ t.ghead = some x := by
      rw [hhead]
      intro hx
      exact hxa (Option.some.inj hx ▸ List.mem_cons_self)
    have hcell : (t.glob.setNextOf (y :: a).getLast? b.head?).next x = b.head? :=
      (Links.setNextOf_next_of_ne hprevx).trans hnext
    have hunlink : t.glob.unlink x =
        (t.glob.setNextOf (y :: a).getLast? b.head?).setPrevOf b.head? (y :: a).getLast? := by
      rw [Links.unlink, hprev, hnext]
    have hcell' : ((t.glob.setNextOf (y :: a).getLast? b.head?).setPrevOf b.head?
        (y :: a).getLast?).prev x = (y :: a).getLast? := by
      rw [Links.setPrevOf_prev_of_ne hnextx, Links.setNextOf_prev, hprev]
    have hsame : (y :: a ++ b).head? = t.ghead := hhead.symm
    simp only [if_neg hfirst, hprev, hnext, hcell, Links.setNextOf_prev, hunlink, hsame, hcell',
      htail']

theorem sfxhashGetFreeNode_eq (h : t.glob.Holds (x :: l)) (htail : t.ftail = (x :: l).getLast?) :
    sfxhashGetFreeNode t x = { t with
      glob := t.glob.unlink x
      fhead := l.head?
      ftail := l.getLast? } := by
  have hcell := Links.Holds.cell (a := []) h
  obtain ⟨hnext, hprev⟩ := hcell
  have hxl : x ∉ l := (List.nodup_cons.1 h.nodup).1
  have hnone : t.glob.prev x = none := hprev
  have htail' : (if t.ftail = some x then none else t.ftail) = l.getLast? := by
    rw [htail]
    cases l with
    | nil => simp
    | cons z l =>
      rw [List.getLast?_cons_cons, if_neg]
      exact fun hx => hxl (List.mem_of_getLast? hx)
  have hunlink : t.glob.unlink x = t.glob.setPrevOf l.head? none := by
    rw [Links.unlink, hnone, hnext]
    rfl
  simp only [sfxhashGetFreeNode, hnext, htail', hunlink]

end Helpers

/-! ### What is kept -/

/-- The settings, the keys and the walk have not changed. -/
structure SameTable (t t' : SfxHash K D) : Prop where
  hashFcn : t'.hashFcn = t.hashFcn
  nrows : t'.nrows = t.nrows
  datasize : t'.datasize = t.datasize
  splay : t'.splay = t.splay
  anrFlag : t'.anrFlag = t.anrFlag
  recycleNodes : t'.recycleNodes = t.recycleNodes
  maxNodes : t'.maxNodes = t.maxNodes
  rindex : t'.rindex = t.rindex
  key : t'.key = t.key
  crow : t'.crow = t.crow
  cnode : t'.cnode = t.cnode

/-- Only links, the free list and counters have changed. -/
structure Keeps (t t' : SfxHash K D) : Prop extends SameTable t t' where
  data : t'.data = t.data
  brk : t'.brk = t.brk

variable {t : SfxHash K D} {v : View} {x : ℕ}

theorem SameTable.refl (t : SfxHash K D) : SameTable t t :=
  ⟨rfl, rfl, rfl, rfl, rfl, rfl, rfl, rfl, rfl, rfl, rfl⟩

theorem Keeps.refl (t : SfxHash K D) : Keeps t t := ⟨.refl t, rfl, rfl⟩

theorem SameTable.trans {t₁ t₂ t₃ : SfxHash K D} (h : SameTable t₁ t₂) (h' : SameTable t₂ t₃) :
    SameTable t₁ t₃ :=
  ⟨h'.hashFcn.trans h.hashFcn, h'.nrows.trans h.nrows, h'.datasize.trans h.datasize,
    h'.splay.trans h.splay, h'.anrFlag.trans h.anrFlag, h'.recycleNodes.trans h.recycleNodes,
    h'.maxNodes.trans h.maxNodes, h'.rindex.trans h.rindex, h'.key.trans h.key,
    h'.crow.trans h.crow, h'.cnode.trans h.cnode⟩

theorem Keeps.trans {t₁ t₂ t₃ : SfxHash K D} (h : Keeps t₁ t₂) (h' : Keeps t₂ t₃) : Keeps t₁ t₃ :=
  ⟨h.toSameTable.trans h'.toSameTable, h'.data.trans h.data, h'.brk.trans h.brk⟩

theorem SameTable.index {t t' : SfxHash K D} (h : SameTable t t') : t'.index = t.index := by
  funext key
  rw [SfxHash.index, SfxHash.index, h.hashFcn, h.nrows]

theorem Rep.used_holds (h : Rep t v) : t.glob.Holds v.used := h.globs.holds .used

theorem Rep.free_holds (h : Rep t v) : t.glob.Holds v.free := h.globs.holds .free

theorem Rep.not_free (h : Rep t v) (hx : x ∈ v.used) : x ∉ v.free := by
  intro hx'
  have hsame : Pool.used = Pool.free := h.globs.disjoint hx hx'
  cases hsame

theorem Rep.mem_rindex (h : Rep t v) (hx : x ∈ v.used) : x ∈ v.row (t.rindex x) :=
  (h.mem_row _ _).2 ⟨hx, rfl⟩

theorem Rep.not_mem_row (h : Rep t v) (hx : x ∉ v.used) (r : ℕ) : x ∉ v.row r := fun hr =>
  hx ((h.mem_row r x).1 hr).1

/-! ### Nodes that are taken out -/

/-- A node is taken off its row and off the global list. -/
def View.erase (v : View) (r x : ℕ) : View :=
  { v with
    row := Function.update v.row r ((v.row r).erase x)
    used := v.used.erase x }

/-- The table without the node. -/
def detached (t : SfxHash K D) (v : View) (x : ℕ) : SfxHash K D :=
  { t with
    row := t.row.unlink x
    table := Function.update t.table (t.rindex x) ((v.row (t.rindex x)).erase x).head?
    glob := t.glob.unlink x
    ghead := (v.used.erase x).head?
    gtail := (v.used.erase x).getLast? }

theorem Rep.detached_eq (h : Rep t v) (hx : x ∈ v.used) :
    sfxhashGunlinkNode (sfxhashUnlinkNode t x) x = detached t v x ∧
      sfxhashUnlinkNode (sfxhashGunlinkNode t x) x = detached t v x := by
  obtain ⟨a, b, hab, hrow⟩ :=
    Links.exists_append_of_mem (h.rows.holds _).nodup (h.mem_rindex hx)
  obtain ⟨c, d, hcd, hglob⟩ := Links.exists_append_of_mem h.used_holds.nodup hx
  have hr : t.row.Holds (a ++ x :: b) := hab ▸ h.rows.holds _
  have hg : t.glob.Holds (c ++ x :: d) := hcd ▸ h.used_holds
  have htable : t.table (t.rindex x) = (a ++ x :: b).head? := hab ▸ h.table _
  have hhead : t.ghead = (c ++ x :: d).head? := hcd ▸ h.ghead
  have htail : t.gtail = (c ++ x :: d).getLast? := hcd ▸ h.gtail
  rw [detached, hrow, hglob]
  constructor
  · rw [sfxhashUnlinkNode_eq t hr htable]
    exact sfxhashGunlinkNode_eq { t with row := _, table := _ } hg hhead htail
  · rw [sfxhashGunlinkNode_eq t hg hhead htail]
    exact sfxhashUnlinkNode_eq { t with glob := _, ghead := _, gtail := _ } hr htable

theorem mem_update_erase {lists : ℕ → List ℕ} (hnd : ∀ r, (lists r).Nodup)
    (hdisj : ∀ {r r' x}, x ∈ lists r → x ∈ lists r' → r = r') {r x : ℕ} (hx : x ∈ lists r)
    (r' y : ℕ) :
    y ∈ Function.update lists r ((lists r).erase x) r' ↔ y ∈ lists r' ∧ y ≠ x := by
  by_cases hr : r' = r
  · subst hr
    rw [Function.update_self, (hnd r').mem_erase_iff, and_comm]
  · rw [Function.update_of_ne hr]
    refine ⟨fun hy => ⟨hy, ?_⟩, And.left⟩
    rintro rfl
    exact hr (hdisj hy hx)

/-- The first nodes of the rows when one row is changed. -/
theorem update_head? {table : ℕ → Option ℕ} {lists : ℕ → List ℕ}
    (h : ∀ r, table r = (lists r).head?) (r : ℕ) (l : List ℕ) (r' : ℕ) :
    Function.update table r l.head? r' = (Function.update lists r l r').head? := by
  by_cases hr : r' = r
  · subst hr
    rw [Function.update_self, Function.update_self]
  · rw [Function.update_of_ne hr, Function.update_of_ne hr]
    exact h r'

theorem Rep.erase (h : Rep t v) (hx : x ∈ v.used) :
    Rep { detached t v x with count := (detached t v x).count - 1 } (v.erase (t.rindex x) x) := by
  have hmem : ∀ y, y ∈ v.used.erase x ↔ y ∈ v.used ∧ y ≠ x := fun y => by
    rw [h.used_holds.nodup.mem_erase_iff, and_comm]
  have hglobs := h.globs.unlink (r := .used) hx
  rw [View.glob_update_used] at hglobs
  refine ⟨h.rows.unlink (h.mem_rindex hx), update_head? h.table _ _, hglobs, rfl, rfl, h.fhead,
    h.ftail, fun r y => ?_, fun y hy => ?_, fun y hy z hz heq => ?_, fun y hy => ?_, h.free_lt, ?_⟩
  · have hrow := mem_update_erase (fun r => (h.rows.holds r).nodup) h.rows.disjoint (h.mem_rindex hx)
      r y
    refine hrow.trans ?_
    rw [h.mem_row, and_right_comm]
    exact and_congr_left fun _ => (hmem y).symm
  · exact h.rindex y ((hmem y).1 hy).1
  · exact h.key_inj y ((hmem y).1 hy).1 z ((hmem z).1 hz).1 heq
  · exact h.used_lt y ((hmem y).1 hy).1
  · show t.count - 1 = (v.used.erase x).length
    rw [List.length_erase_of_mem hx, h.count]

theorem keeps_detached (t : SfxHash K D) (v : View) (x n : ℕ) :
    Keeps t { detached t v x with count := n } :=
  ⟨⟨rfl, rfl, rfl, rfl, rfl, rfl, rfl, rfl, rfl, rfl, rfl⟩, rfl, rfl⟩

/-- Another free list. -/
theorem Rep.withFree (h : Rep t v) {glob : Links ℕ} {fhead ftail : Option ℕ} {f : List ℕ}
    (hglobs : Links.Family glob (Function.update v.glob .free f)) (hhead : fhead = f.head?)
    (htail : ftail = f.getLast?) (hlt : ∀ y ∈ f, y < t.brk) :
    Rep { t with glob := glob, fhead := fhead, ftail := ftail } { v with free := f } := by
  rw [View.glob_update_free] at hglobs
  exact ⟨h.rows, h.table, hglobs, h.ghead, h.gtail, hhead, htail, h.mem_row, h.rindex, h.key_inj,
    h.used_lt, hlt, h.count⟩

/-- The free list gets a node that is on no list. -/
theorem Rep.saveFreeNode (h : Rep t v) (hx : x ∉ v.used) (hx' : x ∉ v.free) (hlt : x < t.brk) :
    Rep (sfxhashSaveFreeNode t x) { v with free := x :: v.free } ∧
      Keeps t (sfxhashSaveFreeNode t x) := by
  have hglobs := h.globs.link (x := x) (fun p => by cases p <;> assumption) .free
  rw [sfxhashSaveFreeNode_eq t h.fhead h.ftail]
  refine ⟨h.withFree hglobs rfl rfl fun y hy => ?_,
    ⟨⟨rfl, rfl, rfl, rfl, rfl, rfl, rfl, rfl, rfl, rfl, rfl⟩, rfl, rfl⟩⟩
  rcases List.mem_cons.1 hy with rfl | hy
  · exact hlt
  · exact h.free_lt y hy

/-- A node is taken off the free list. -/
theorem Rep.getFreeNode {l : List ℕ} (h : Rep t v) (hl : v.free = x :: l) :
    Rep (sfxhashGetFreeNode t x) { v with free := l } ∧ Keeps t (sfxhashGetFreeNode t x) := by
  have hmem : x ∈ v.glob .free := by
    show x ∈ v.free
    exact hl ▸ List.mem_cons_self
  have herase : (v.glob .free).erase x = l := by
    show v.free.erase x = l
    rw [hl, List.erase_cons_head]
  have hglobs := h.globs.unlink hmem
  rw [herase] at hglobs
  rw [sfxhashGetFreeNode_eq t (hl ▸ h.free_holds) (hl ▸ h.ftail)]
  exact ⟨h.withFree hglobs rfl rfl fun y hy => h.free_lt y (hl ▸ List.mem_cons_of_mem x hy),
    ⟨⟨rfl, rfl, rfl, rfl, rfl, rfl, rfl, rfl, rfl, rfl, rfl⟩, rfl, rfl⟩⟩

theorem Rep.freeNode_eq (h : Rep t v) (hx : x ∈ v.used) :
    sfxhashFreeNode t x =
      if t.recycleNodes then
        sfxhashSaveFreeNode { detached t v x with count := (detached t v x).count - 1 } x
      else
        { detached t v x with
          count := (detached t v x).count - 1
          room := t.room.map (· + 1) } := by
  rw [sfxhashFreeNode, (h.detached_eq hx).1]
  rfl

/-- `sfxhash_free_node` on a node of the table. -/
theorem Rep.freeNode (h : Rep t v) (hx : x ∈ v.used) :
    Rep (sfxhashFreeNode t x) { v.erase (t.rindex x) x with
        free := if t.recycleNodes then x :: v.free else v.free } ∧
      Keeps t (sfxhashFreeNode t x) := by
  have hrep := h.erase hx
  rw [h.freeNode_eq hx]
  by_cases hrec : t.recycleNodes = true
  · obtain ⟨hsave, hkeeps⟩ := hrep.saveFreeNode h.used_holds.nodup.not_mem_erase (h.not_free hx)
      (h.used_lt x hx)
    rw [if_pos hrec, if_pos hrec]
    exact ⟨hsave, (keeps_detached t v x _).trans hkeeps⟩
  · rw [if_neg hrec, if_neg hrec]
    exact ⟨⟨hrep.rows, hrep.table, hrep.globs, hrep.ghead, hrep.gtail, hrep.fhead, hrep.ftail,
      hrep.mem_row, hrep.rindex, hrep.key_inj, hrep.used_lt, hrep.free_lt, hrep.count⟩,
      ⟨⟨rfl, rfl, rfl, rfl, rfl, rfl, rfl, rfl, rfl, rfl, rfl⟩, rfl, rfl⟩⟩

/-! ### Nodes that are linked -/

/-- A new node in front of its row and of the global list. -/
def View.insert (v : View) (r x : ℕ) : View :=
  { v with
    row := Function.update v.row r (x :: v.row r)
    used := x :: v.used }

/-- The table with a node that is linked in front. -/
def inserted (t : SfxHash K D) (v : View) (x : ℕ) (key : K) (data : Option D) : SfxHash K D :=
  { t with
    key := Function.update t.key x key
    rindex := Function.update t.rindex x (t.index key)
    data := Function.update t.data x (if t.datasize = 0 then data else data.or (t.data x))
    row := t.row.link none x (v.row (t.index key)).head?
    table := Function.update t.table (t.index key) (some x)
    glob := t.glob.link none x v.used.head?
    ghead := some x
    gtail := (x :: v.used).getLast?
    count := t.count + 1 }

theorem Rep.insertNode_eq (h : Rep t v) (x : ℕ) (key : K) (data : Option D) :
    insertNode t x key data = inserted t v x key data := by
  have hself : Function.update t.rindex x (t.index key) x = t.index key := Function.update_self _ _ _
  have hlink := sfxhashLinkNode_eq (x := x) (l := v.row (t.index key)) { t with
    key := Function.update t.key x key
    rindex := Function.update t.rindex x (t.index key)
    data := Function.update t.data x (if t.datasize = 0 then data else data.or (t.data x)) } (by
      show t.table (Function.update t.rindex x (t.index key) x) = _
      rw [hself, h.table])
  have hglink := sfxhashGlinkNode_eq (x := x) (l := v.used) { t with
    key := Function.update t.key x key
    rindex := Function.update t.rindex x (t.index key)
    data := Function.update t.data x (if t.datasize = 0 then data else data.or (t.data x))
    row := t.row.link none x (v.row (t.index key)).head?
    table := Function.update t.table (t.index key) (some x) } h.ghead h.gtail
  simp only [hself] at hlink
  exact congrArg (fun t : SfxHash K D => { t with count := t.count + 1 })
    ((congrArg (sfxhashGlinkNode · x) hlink).trans hglink)

/-- The end of `sfxhash_add`: a node that is on no list. -/
theorem Rep.insert (h : Rep t v) (hx : x ∉ v.used) (hx' : x ∉ v.free) (hlt : x < t.brk) {key : K}
    (hkey : ∀ y ∈ v.used, t.key y ≠ key) (data : Option D) :
    Rep (insertNode t x key data) (v.insert (t.index key) x) := by
  have hglobs := h.globs.link (x := x) (fun p => by cases p <;> assumption) .used
  rw [View.glob_update_used] at hglobs
  have hne : ∀ y ∈ v.used, y ≠ x := fun y hy hyx => hx (hyx ▸ hy)
  have hkeyOf : ∀ y ∈ v.used, Function.update t.key x key y = t.key y := fun y hy =>
    Function.update_of_ne (hne y hy) _ _
  have hrindexOf : ∀ y ∈ v.used, Function.update t.rindex x (t.index key) y = t.rindex y :=
    fun y hy => Function.update_of_ne (hne y hy) _ _
  rw [h.insertNode_eq]
  refine ⟨h.rows.link (h.not_mem_row hx) (t.index key),
    update_head? h.table (t.index key) (x :: v.row (t.index key)), hglobs, rfl, rfl, h.fhead,
    h.ftail, fun r y => ?_, fun y hy => ?_, fun y hy z hz heq => ?_, fun y hy => ?_, h.free_lt, ?_⟩
  · show y ∈ Function.update v.row (t.index key) (x :: v.row (t.index key)) r ↔
      y ∈ x :: v.used ∧ Function.update t.rindex x (t.index key) y = r
    by_cases hyx : y = x
    · subst hyx
      rw [Function.update_self]
      by_cases hr : r = t.index key
      · subst hr
        simp
      · rw [Function.update_of_ne hr]
        exact ⟨fun hy => absurd hy (h.not_mem_row hx r), fun hy => absurd hy.2.symm hr⟩
    · rw [Function.update_of_ne hyx, List.mem_cons, or_iff_right hyx, ← h.mem_row]
      by_cases hr : r = t.index key
      · subst hr
        rw [Function.update_self, List.mem_cons, or_iff_right hyx]
      · rw [Function.update_of_ne hr]
  · show Function.update t.rindex x (t.index key) y = t.index (Function.update t.key x key y)
    rcases List.mem_cons.1 hy with rfl | hy
    · rw [Function.update_self, Function.update_self]
    · rw [hrindexOf y hy, hkeyOf y hy]
      exact h.rindex y hy
  · have heq' : Function.update t.key x key y = Function.update t.key x key z := heq
    rcases List.mem_cons.1 hy with rfl | hyold
    · rcases List.mem_cons.1 hz with rfl | hzold
      · rfl
      · rw [Function.update_self, hkeyOf z hzold] at heq'
        exact absurd heq'.symm (hkey z hzold)
    · rcases List.mem_cons.1 hz with rfl | hzold
      · rw [Function.update_self, hkeyOf y hyold] at heq'
        exact absurd heq' (hkey y hyold)
      · rw [hkeyOf y hyold, hkeyOf z hzold] at heq'
        exact h.key_inj y hyold z hzold heq'
  · rcases List.mem_cons.1 hy with rfl | hy
    · exact hlt
    · exact h.used_lt y hy
  · exact congrArg (· + 1) h.count

/-! ### Nodes that are moved to the front -/

/-- A node moves to the front of the global list. -/
def View.gfront (v : View) (x : ℕ) : View := { v with used := x :: v.used.erase x }

theorem erase_head {l : List ℕ} (h : l.head? = some x) : x :: l.erase x = l := by
  cases l with
  | nil => exact absurd h (by simp)
  | cons y l =>
    obtain rfl : y = x := Option.some.inj h
    rw [List.erase_cons_head]

/-- `sfxhash_gmovetofront` on a node of the table. -/
theorem Rep.gmovetofront (h : Rep t v) (hx : x ∈ v.used) :
    Rep (sfxhashGmovetofront t x) (v.gfront x) ∧ Keeps t (sfxhashGmovetofront t x) := by
  rw [sfxhashGmovetofront]
  by_cases hhead : t.ghead = some x
  · rw [if_pos hhead, View.gfront, erase_head (h.ghead.symm.trans hhead)]
    exact ⟨h, .refl t⟩
  · obtain ⟨c, d, hcd, herase⟩ := Links.exists_append_of_mem h.used_holds.nodup hx
    have hglobs := h.globs.unlink (r := .used) hx
    have herase' : (v.glob .used).erase x = v.used.erase x := rfl
    have hnot : ∀ p, x ∉ ({ v with used := v.used.erase x } : View).glob p := by
      intro p
      cases p with
      | used => exact h.used_holds.nodup.not_mem_erase
      | free => exact h.not_free hx
    rw [herase', View.glob_update_used] at hglobs
    have hglobs' := hglobs.link hnot .used
    rw [View.glob_update_used] at hglobs'
    have hunlink := sfxhashGunlinkNode_eq t (hcd ▸ h.used_holds) (hcd ▸ h.ghead) (hcd ▸ h.gtail)
    rw [← herase] at hunlink
    rw [if_neg hhead, hunlink, sfxhashGlinkNode_eq (l := v.used.erase x) _ rfl rfl]
    have hmem : ∀ y, y ∈ x :: v.used.erase x ↔ y ∈ v.used := fun y =>
      (List.perm_cons_erase hx).mem_iff.symm
    refine ⟨⟨h.rows, h.table, hglobs', rfl, rfl, h.fhead, h.ftail, fun r y => ?_, fun y hy => ?_,
      fun y hy z hz => ?_, fun y hy => ?_, h.free_lt, ?_⟩,
      ⟨⟨rfl, rfl, rfl, rfl, rfl, rfl, rfl, rfl, rfl, rfl, rfl⟩, rfl, rfl⟩⟩
    · exact (h.mem_row r y).trans (and_congr_left fun _ => (hmem y).symm)
    · exact h.rindex y ((hmem y).1 hy)
    · exact h.key_inj y ((hmem y).1 hy) z ((hmem z).1 hz)
    · exact h.used_lt y ((hmem y).1 hy)
    · exact h.count.trans (List.perm_cons_erase hx).length_eq

/-- A node moves to the front of its row. -/
def View.rfront (v : View) (r x : ℕ) : View :=
  { v with row := Function.update v.row r (x :: (v.row r).erase x) }

/-- The first half of `movetofront`. -/
theorem Rep.relink (h : Rep t v) (hx : x ∈ v.used) :
    Rep (if t.table (t.rindex x) = some x then t else sfxhashLinkNode (sfxhashUnlinkNode t x) x)
        (v.rfront (t.rindex x) x) ∧
      Keeps t (if t.table (t.rindex x) = some x then t
        else sfxhashLinkNode (sfxhashUnlinkNode t x) x) := by
  have hrow := h.mem_rindex hx
  by_cases hhead : t.table (t.rindex x) = some x
  · rw [if_pos hhead, View.rfront, erase_head ((h.table _).symm.trans hhead),
      Function.update_eq_self]
    exact ⟨h, .refl t⟩
  · obtain ⟨a, b, hab, herase⟩ := Links.exists_append_of_mem (h.rows.holds _).nodup hrow
    have hrows := h.rows.unlink hrow
    have hnd : ∀ r, (v.row r).Nodup := fun r => (h.rows.holds r).nodup
    have hmem := mem_update_erase hnd h.rows.disjoint hrow
    have hrows' := hrows.link (fun r hr => ((hmem r x).1 hr).2 rfl) (t.rindex x)
    rw [Function.update_self, Function.update_idem] at hrows'
    have hunlink := sfxhashUnlinkNode_eq t (hab ▸ h.rows.holds _) (hab ▸ h.table _)
    rw [← herase] at hunlink
    rw [if_neg hhead, hunlink, sfxhashLinkNode_eq (l := (v.row (t.rindex x)).erase x) _
      (Function.update_self _ _ _)]
    refine ⟨⟨hrows', fun r => ?_, h.globs, h.ghead, h.gtail, h.fhead, h.ftail, fun r y => ?_,
      h.rindex, h.key_inj, h.used_lt, h.free_lt, h.count⟩,
      ⟨⟨rfl, rfl, rfl, rfl, rfl, rfl, rfl, rfl, rfl, rfl, rfl⟩, rfl, rfl⟩⟩
    · show Function.update (Function.update t.table (t.rindex x) _) (t.rindex x) (some x) r = _
      rw [Function.update_idem]
      exact update_head? h.table (t.rindex x) (x :: (v.row (t.rindex x)).erase x) r
    · refine Iff.trans ?_ (h.mem_row r y)
      by_cases hr : r = t.rindex x
      · subst hr
        show y ∈ Function.update v.row (t.rindex x) _ (t.rindex x) ↔ _
        rw [Function.update_self]
        exact (List.perm_cons_erase hrow).mem_iff.symm
      · show y ∈ Function.update v.row (t.rindex x) _ r ↔ _
        rw [Function.update_of_ne hr]

/-- `movetofront` on a node of the table. -/
theorem Rep.toFront (h : Rep t v) (hx : x ∈ v.used) :
    Rep (movetofront t x) ((v.rfront (t.rindex x) x).gfront x) ∧ Keeps t (movetofront t x) := by
  obtain ⟨hrep, hkeeps⟩ := h.relink hx
  obtain ⟨hrep', hkeeps'⟩ := hrep.gmovetofront hx
  exact ⟨hrep', hkeeps.trans hkeeps'⟩

end Snort.Sfxhash.Pointers
