import Snort.Lib.Links

/-!
# Lists with a cursor: `sflsq.c`

The nodes of a list are numbered in the order in which they are allocated.  A null pointer is `none`; an
operation that writes through one gives `none`.

* `SfList`, `sflistAddHead`, `sflistAddTail`, `sflistAddBefore`: the list and what adds an item;
* `SfList.Rep`: the nodes of a list in order, with **`Rep.addHead`**, **`Rep.addTail`**, **`Rep.addBefore`**.
-/

namespace Snort.Threshold

open Links

/-- `SF_LIST`, with the nodes. -/
structure SfList (α : Type) where
  links : Links ℕ
  ndata : ℕ → Option α
  count : ℕ
  head : Option ℕ
  tail : Option ℕ
  cur : Option ℕ
  /-- The number of nodes that have been allocated. -/
  allocated : ℕ

section Operations

variable {α : Type}

def sflistNew : SfList α := ⟨⟨fun _ => none, fun _ => none⟩, fun _ => none, 0, none, none, none, 0⟩

/-- `s_alloc (sizeof (SF_LNODE))`, with the item and the links of the node. -/
def SfList.addNode (s : SfList α) (prev next : Option ℕ) (ndata : α) : SfList α :=
  { s with
    links := s.links.link prev s.allocated next
    ndata := Function.update s.ndata s.allocated (some ndata)
    count := s.count + 1
    allocated := s.allocated + 1 }

def sflistAddHead (s : SfList α) (ndata : α) : SfList α :=
  let q := s.allocated
  match s.head with
  | none => { s.addNode none none ndata with head := some q, tail := some q }
  | some head => { s.addNode none (some head) ndata with head := some q }

def sflistAddTail (s : SfList α) (ndata : α) : Option (SfList α) :=
  let q := s.allocated
  match s.head with
  | none => some { s.addNode none none ndata with head := some q, tail := some q }
  | some _ => do
    let tail ← s.tail
    some { s.addNode (some tail) none ndata with tail := some q }

def sflistAddBefore (s : SfList α) (lnode : ℕ) (ndata : α) : Option (SfList α) :=
  if s.head = some lnode then some (sflistAddHead s ndata)
  else do
    let prev ← s.links.prev lnode
    some (s.addNode (some prev) (some lnode) ndata)

/-- The item of a node is changed in place. -/
def SfList.setData (s : SfList α) (lnode : ℕ) (ndata : α) : SfList α :=
  { s with ndata := Function.update s.ndata lnode (some ndata) }

/-- `sflist_first` and `sflist_first_node`; `cur` is the node returned. -/
def sflistFirst (s : SfList α) : SfList α := { s with cur := s.head }

/-- `sflist_next` and `sflist_next_node`. -/
def sflistNext (s : SfList α) : SfList α := { s with cur := s.cur.bind s.links.next }

end Operations

/-! ### The nodes in order -/

section Rep

variable {α : Type}

/-- A list has these nodes, with these items. -/
structure SfList.Rep (s : SfList α) (nodes : List ℕ) (items : List α) : Prop where
  holds : Holds s.links nodes
  head : s.head = nodes.head?
  tail : s.tail = nodes.getLast?
  count : s.count = nodes.length
  lt : ∀ q ∈ nodes, q < s.allocated
  items : nodes.map s.ndata = items.map some

variable {s : SfList α} {nodes front back : List ℕ} {items before behind : List α} {x : α}

theorem rep_new : (sflistNew : SfList α).Rep [] [] :=
  ⟨holds_nil _, rfl, rfl, rfl, fun _ hq => absurd hq List.not_mem_nil, rfl⟩

theorem SfList.Rep.first (h : s.Rep nodes items) : (sflistFirst s).Rep nodes items :=
  ⟨h.holds, h.head, h.tail, h.count, h.lt, h.items⟩

theorem SfList.Rep.next (h : s.Rep nodes items) : (sflistNext s).Rep nodes items :=
  ⟨h.holds, h.head, h.tail, h.count, h.lt, h.items⟩

/-- The items are determined. -/
theorem SfList.Rep.unique {nodes' : List ℕ} {items' : List α} (h : s.Rep nodes items) (h' : s.Rep nodes' items') :
    items = items' := by
  obtain rfl := h.holds.eq h'.holds (h.head.symm.trans h'.head)
  exact List.map_injective_iff.2 (Option.some_injective α) (h.items.symm.trans h'.items)

/-- A list is split at its items. -/
theorem SfList.Rep.split (h : s.Rep nodes (before ++ behind)) :
    ∃ front back, nodes = front ++ back ∧ front.map s.ndata = before.map some ∧ back.map s.ndata = behind.map some := by
  have hitems := h.items
  rw [List.map_append] at hitems
  obtain ⟨front, back, rfl, hfront, hback⟩ := List.map_eq_append_iff.1 hitems
  exact ⟨front, back, rfl, hfront, hback⟩

/-- The items behind a part of a list. -/
theorem SfList.Rep.drop (h : s.Rep (front ++ back) (before ++ behind)) (hfront : front.map s.ndata = before.map some) :
    back.map s.ndata = behind.map some := by
  have hitems := h.items
  rw [List.map_append, List.map_append, hfront] at hitems
  exact List.append_cancel_left hitems

theorem map_update {q : ℕ} {l : List ℕ} (hq : q ∉ l) (f : ℕ → Option α) (v : Option α) :
    l.map (Function.update f q v) = l.map f :=
  List.map_congr_left fun z hz => Function.update_of_ne (fun heq : z = q => hq (heq ▸ hz)) _ _

/-- **The item of a node is written.** -/
theorem SfList.Rep.write {lnode : ℕ} {y : α} (h : s.Rep (front ++ lnode :: back) (before ++ y :: behind))
    (hfront : front.map s.ndata = before.map some) (x : α) :
    (s.setData lnode x).Rep (front ++ lnode :: back) (before ++ x :: behind) ∧
      front.map (s.setData lnode x).ndata = before.map some := by
  have hnot := (List.nodup_cons.1 (List.nodup_middle.1 h.holds.nodup)).1
  rw [List.mem_append, not_or] at hnot
  have hwritten : front.map (Function.update s.ndata lnode (some x)) = before.map some :=
    (map_update hnot.1 s.ndata (some x)).trans hfront
  refine ⟨⟨h.holds, h.head, h.tail, h.count, h.lt, ?_⟩, hwritten⟩
  show (front ++ lnode :: back).map (Function.update s.ndata lnode (some x)) = _
  rw [List.map_append, List.map_append, hwritten, List.map_cons, List.map_cons, Function.update_self,
    map_update hnot.2, (List.cons.inj (h.drop hfront)).2]

/-- A node is put between two others. -/
theorem SfList.Rep.addNode (h : s.Rep (front ++ back) (before ++ behind)) (hfront : front.map s.ndata = before.map some)
    (hback : back.map s.ndata = behind.map some) (x : α) {head tail : Option ℕ}
    (hhead : head = (front ++ s.allocated :: back).head?) (htail : tail = (front ++ s.allocated :: back).getLast?) :
    SfList.Rep { s.addNode front.getLast? back.head? x with head := head, tail := tail } (front ++ s.allocated :: back)
      (before ++ x :: behind) := by
  have hfresh : s.allocated ∉ front ++ back := fun hmem => (h.lt _ hmem).ne rfl
  rw [List.mem_append, not_or] at hfresh
  refine ⟨h.holds.link (List.not_mem_append hfresh.1 hfresh.2), hhead, htail, ?_, fun q hq => ?_, ?_⟩
  · show s.count + 1 = _
    rw [h.count, List.length_append, List.length_append, List.length_cons, Nat.add_assoc]
  · show q < s.allocated + 1
    rw [List.mem_append, List.mem_cons, or_left_comm, ← List.mem_append] at hq
    rcases hq with rfl | hq
    · exact Nat.lt_succ_self _
    · exact Nat.lt_succ_of_lt (h.lt q hq)
  · show (front ++ s.allocated :: back).map (Function.update s.ndata s.allocated (some x)) = _
    rw [List.map_append, List.map_cons, map_update hfresh.1, map_update hfresh.2, Function.update_self, hfront,
      hback, List.map_append, List.map_cons]

/-- **An item is added at the head.** -/
theorem SfList.Rep.addHead (h : s.Rep nodes items) (x : α) :
    (sflistAddHead s x).Rep (s.allocated :: nodes) (x :: items) := by
  have hadd : s.Rep ([] ++ nodes) ([] ++ items) := h
  unfold sflistAddHead
  rw [h.head]
  cases nodes with
  | nil => exact hadd.addNode rfl h.items x rfl rfl
  | cons y nodes =>
    refine hadd.addNode rfl h.items x rfl (h.tail.trans ?_)
    rw [List.nil_append, List.getLast?_cons_cons]

/-- **An item is added at the tail.** -/
theorem SfList.Rep.addTail (h : s.Rep nodes items) (x : α) :
    ∃ s', sflistAddTail s x = some s' ∧ s'.Rep (nodes ++ [s.allocated]) (items ++ [x]) := by
  have hadd : s.Rep (nodes ++ []) (items ++ []) := by
    rw [List.append_nil, List.append_nil]
    exact h
  unfold sflistAddTail
  rw [h.head, h.tail]
  cases nodes with
  | nil => exact ⟨_, rfl, hadd.addNode h.items rfl x rfl rfl⟩
  | cons y nodes =>
    rw [List.getLast?_cons]
    refine ⟨_, rfl, ?_⟩
    have hlast : (y :: nodes).getLast? = some (nodes.getLast?.getD y) := List.getLast?_cons
    rw [← hlast]
    refine hadd.addNode h.items rfl x h.head ?_
    rw [List.getLast?_concat]

/-- **An item is added in front of a node.** -/
theorem SfList.Rep.addBefore {lnode : ℕ} {y : α} (h : s.Rep (front ++ lnode :: back) (before ++ y :: behind))
    (hfront : front.map s.ndata = before.map some) (x : α) :
    ∃ s', sflistAddBefore s lnode x = some s' ∧
      s'.Rep (front ++ s.allocated :: lnode :: back) (before ++ x :: y :: behind) := by
  have hback := h.drop hfront
  unfold sflistAddBefore
  cases front with
  | nil =>
    obtain rfl : before = [] := List.map_eq_nil_iff.1 hfront.symm
    have hhead : s.head = some lnode := h.head
    rw [if_pos hhead]
    exact ⟨_, rfl, h.addHead x⟩
  | cons z front =>
    have hne : s.head ≠ some lnode := by
      intro hhead
      obtain rfl : z = lnode := Option.some.inj (h.head.symm.trans hhead)
      exact (List.nodup_cons.1 h.holds.nodup).1 (List.mem_append_right _ List.mem_cons_self)
    have hlast : (z :: front).getLast? = some (front.getLast?.getD z) := List.getLast?_cons
    rw [if_neg hne, h.holds.cell.2, hlast]
    refine ⟨_, rfl, ?_⟩
    rw [← hlast]
    refine h.addNode hfront hback x h.head (h.tail.trans ?_)
    rw [List.getLast?_append_cons, List.getLast?_append_cons, List.getLast?_cons_cons]

end Rep

end Snort.Threshold
