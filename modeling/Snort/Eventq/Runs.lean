import Snort.Eventq.Queue

/-!
# The event queue over a run

* `Run`: allocations, fills and additions after a reset, with the events that are pending and the history of
  those that were added;
* `Invariant`: the list, the slots and the history agree;
* `Invariant.alloc`, `Invariant.fill`, `Invariant.add`: the steps keep it;
* **`queue_best`**: in every run, the list holds the best of the events that were added.
-/

namespace Snort.Eventq

open Links Selection

section Nodes

variable {α : Type} {eq : EventQ α} {entries : List Entry} {l : Entry} {event : ℕ}

/-- The event is not in front of the last one, which stays. -/
theorem getEventqNode_drop (hfull : eq.maxNodes ≤ eq.curNodes) (h : Linked eq (entries ++ [l]))
    (hless : eq.sort (eq.eventMem event) (eq.eventMem l.slot) = false) :
    getEventqNode eq event = some ({ eq with reserveEvent := some event }, none) := by
  have hlast := h.last (List.append_ne_nil_of_right_ne_nil entries (List.cons_ne_nil l []))
  rw [List.map_append, List.map_singleton, List.getLast?_concat] at hlast
  have hevent := h.event l (List.mem_append_right _ (List.mem_singleton_self l))
  unfold getEventqNode
  rw [if_pos hfull, hlast, Option.bind_eq_bind, Option.bind_some, hevent, Option.bind_some,
    if_pos hless]

/-- The last node is taken out of the list, and its event becomes the reserve event. -/
theorem getEventqNode_replace (hfull : eq.maxNodes ≤ eq.curNodes) (h : Linked eq (entries ++ [l]))
    (hless : eq.sort (eq.eventMem event) (eq.eventMem l.slot) = true) :
    ∃ eq', getEventqNode eq event = some (eq', some l.node) ∧ (entries ≠ [] → Linked eq' entries) ∧
      Frame { eq with reserveEvent := some l.slot } eq' := by
  have hlast := h.last (List.append_ne_nil_of_right_ne_nil entries (List.cons_ne_nil l []))
  rw [List.map_append, List.map_singleton, List.getLast?_concat] at hlast
  have hevent := h.event l (List.mem_append_right _ (List.mem_singleton_self l))
  have hlinks := h.links
  rw [List.map_append, List.map_singleton] at hlinks
  have hprev := hlinks.cell.2
  unfold getEventqNode
  rw [if_pos hfull, hlast, Option.bind_eq_bind, Option.bind_some, hevent, Option.bind_some,
    if_neg (Bool.not_eq_false _ ▸ hless)]
  dsimp only
  rw [hprev]
  rcases hlastPrev : (entries.map Entry.node).getLast? with - | prev
  · refine ⟨_, rfl, fun hne => absurd ?_ hne, rfl, rfl, rfl, rfl, rfl, rfl⟩
    exact List.map_eq_nil_iff.1 (List.getLast?_eq_none_iff.1 hlastPrev)
  · refine ⟨_, rfl, fun hne => ⟨?_, ?_, fun _ => hlastPrev.symm, fun x hx => ?_⟩, rfl, rfl, rfl, rfl, rfl, rfl⟩
    · have hunlink := hlinks.unlink
      rw [hlinks.unlink_eq, hlastPrev, List.append_nil] at hunlink
      exact hunlink
    · show eq.head = _
      rw [h.head, List.map_append, List.head?_append]
      cases entries with
      | nil => exact absurd rfl hne
      | cons y entries => rfl
    · have hxl : x.node ≠ l.node := by
        intro heq
        exact (List.nodup_append.1 hlinks.nodup).2.2 x.node (List.mem_map_of_mem hx) l.node
          (List.mem_singleton_self _) heq
      show Function.update eq.event l.node (some event) x.node = some x.slot
      rw [Function.update_of_ne hxl]
      exact h.event x (List.mem_append_left _ hx)

end Nodes

/-! ### Runs -/

section Runs

variable {α : Type}

/-- Allocations, fills and additions after a reset: the state, the events that have been allocated and not yet
added, and the history of what was added.  An event is filled in and added while it is pending. -/
inductive Run (eq₀ : EventQ α) : EventQ α → List ℕ → List α → Prop
  | reset : Run eq₀ (sfeventqReset eq₀) [] []
  | alloc {eq pending hist} : Run eq₀ eq pending hist →
      Run eq₀ (sfeventqEventAlloc eq).1 ((sfeventqEventAlloc eq).2.toList ++ pending) hist
  | fill {eq pending hist event} (x : α) : Run eq₀ eq pending hist → event ∈ pending →
      Run eq₀ (fill eq event x) pending hist
  | add {eq pending hist event eq' r} : Run eq₀ eq pending hist → event ∈ pending →
      sfeventqAdd eq (some event) = some (eq', r) →
      Run eq₀ eq' (pending.erase event) (hist ++ [eq.eventMem event])
  | addNull {eq pending hist eq' r} : Run eq₀ eq pending hist → sfeventqAdd eq none = some (eq', r) →
      Run eq₀ eq' pending hist

/-- The order of the events. -/
def EventQ.Less (eq : EventQ α) (x y : α) : Prop := eq.sort x y = true

/-- The slots that are in use: the first ones that have been allocated, and the last one. -/
structure Slots (used : List ℕ) (curEvents maxNodes : ℕ) : Prop where
  nodup : used.Nodup
  lt : ∀ s ∈ used, s < curEvents ∨ s = maxNodes
  count : used.length = curEvents + 1

theorem Slots.perm {used used' : List ℕ} {n max : ℕ} (h : Slots used n max) (hperm : used'.Perm used) :
    Slots used' n max :=
  ⟨hperm.nodup_iff.2 h.nodup, fun s hs => h.lt s (hperm.mem_iff.1 hs), hperm.length_eq.trans h.count⟩

theorem Slots.alloc {used : List ℕ} {n max : ℕ} (h : Slots used n max) (hlt : n < max) :
    Slots (n :: used) (n + 1) max := by
  have hfresh : n ∉ used := fun hmem => by
    have := h.lt n hmem
    omega
  refine ⟨List.nodup_cons.2 ⟨hfresh, h.nodup⟩, fun s hs => ?_, ?_⟩
  · rcases List.mem_cons.1 hs with rfl | hs
    · exact Or.inl (Nat.lt_succ_self _)
    · exact (h.lt s hs).imp_left Nat.lt_succ_of_lt
  · rw [List.length_cons, h.count]

/-- The slots of the list, the pending ones and the reserve. -/
def usedSlots (reserve : Option ℕ) (pending : List ℕ) (entries : List Entry) : List ℕ :=
  entries.map Entry.slot ++ (pending ++ reserve.toList)

/-- The list, the slots and the history agree. -/
structure Invariant (eq : EventQ α) (pending : List ℕ) (hist : List α) (entries : List Entry) : Prop where
  linked : Linked eq entries
  curNodes : entries.length = eq.curNodes
  node_lt : ∀ x ∈ entries, x.node < eq.curNodes
  slots : Slots (usedSlots eq.reserveEvent pending entries) eq.curEvents eq.maxNodes
  events_le : eq.curEvents ≤ eq.maxNodes
  contents : ∀ x ∈ entries, hist[x.id]? = some (eq.eventMem x.slot)
  chosen : Chosen eq.Less eq.maxNodes hist (entries.map Entry.id)

variable {eq eq' : EventQ α} {pending pending' : List ℕ} {hist : List α} {entries : List Entry} {event : ℕ}

theorem Invariant.reset (eq : EventQ α) : Invariant (sfeventqReset eq) [] [] [] where
  linked := ⟨holds_nil _, rfl, fun h => absurd rfl h, fun _ hx => absurd hx List.not_mem_nil⟩
  curNodes := rfl
  node_lt _ hx := absurd hx List.not_mem_nil
  slots := ⟨List.nodup_singleton _, fun _ hs => Or.inr (List.mem_singleton.1 hs), rfl⟩
  events_le := Nat.zero_le _
  contents _ hx := absurd hx List.not_mem_nil
  chosen := ⟨List.Pairwise.nil, fun _ hi => absurd hi List.not_mem_nil, Nat.zero_le _,
    fun _ j hj => absurd hj (Nat.not_lt_zero j), fun _ hi => absurd hi List.not_mem_nil⟩

/-- **An allocation** takes a slot that is not in use, or the reserve. -/
theorem Invariant.alloc (h : Invariant eq pending hist entries) :
    Invariant (sfeventqEventAlloc eq).1 ((sfeventqEventAlloc eq).2.toList ++ pending) hist entries := by
  have hlinked := h.linked
  unfold sfeventqEventAlloc
  split_ifs with hfull
  · cases hreserve : eq.reserveEvent with
    | none => exact h
    | some event =>
      have hslots := h.slots
      rw [hreserve] at hslots
      refine ⟨⟨hlinked.links, hlinked.head, hlinked.last, hlinked.event⟩, h.curNodes, h.node_lt, hslots.perm ?_,
        h.events_le, h.contents, h.chosen⟩
      refine List.Perm.append_left _ ?_
      show (event :: pending ++ []).Perm (pending ++ [event])
      rw [List.append_nil]
      exact (List.perm_append_singleton event pending).symm
  · refine ⟨⟨hlinked.links, hlinked.head, hlinked.last, hlinked.event⟩, h.curNodes, h.node_lt,
      (h.slots.alloc (not_le.1 hfull)).perm ?_, not_le.1 hfull, h.contents, h.chosen⟩
    exact List.perm_middle

/-- What an allocation returns is neither in the list nor pending. -/
theorem Invariant.alloc_fresh (h : Invariant eq pending hist entries) {s : ℕ}
    (hs : (sfeventqEventAlloc eq).2 = some s) : s ∉ entries.map Entry.slot ∧ s ∉ pending := by
  have hslots := h.alloc.slots.nodup
  rw [hs] at hslots
  obtain ⟨-, hrest, hcross⟩ := List.nodup_append.1 hslots
  refine ⟨fun hmem => hcross s hmem s (List.mem_append_left _ List.mem_cons_self) rfl, fun hmem => ?_⟩
  exact (List.nodup_cons.1 hrest).1 (List.mem_append_left _ hmem)

/-- **A fill** of a pending event. -/
theorem Invariant.fill (h : Invariant eq pending hist entries) (hevent : event ∈ pending) (x : α) :
    Invariant (fill eq event x) pending hist entries := by
  have hlinked := h.linked
  refine ⟨⟨hlinked.links, hlinked.head, hlinked.last, hlinked.event⟩, h.curNodes, h.node_lt, h.slots, h.events_le,
    fun y hy => ?_, h.chosen⟩
  have hne : y.slot ≠ event := fun heq =>
    (List.nodup_append.1 h.slots.nodup).2.2 y.slot (List.mem_map_of_mem hy) event
      (List.mem_append_left _ hevent) heq
  rw [h.contents y hy]
  exact congrArg some (Function.update_of_ne hne _ _).symm

/-- Where the list is split, the new event has its place in the history. -/
theorem placed_of_split {mem : ℕ → α} {less : α → α → Bool} {e : α} {front back : List Entry}
    (hcontents : ∀ y ∈ front ++ back, hist[y.id]? = some (mem y.slot))
    (hfront : ∀ y ∈ front, less e (mem y.slot) = false)
    (hback : ∀ y, back.head? = some y → less e (mem y.slot) = true) :
    Placed (fun x y => less x y = true) hist e (front.map Entry.id) (back.map Entry.id) := by
  refine ⟨fun i hi => ?_, fun i hi => ?_⟩
  · obtain ⟨y, hy, rfl⟩ := List.mem_map.1 hi
    exact ⟨_, hcontents y (List.mem_append_left _ hy), Bool.eq_false_iff.1 (hfront y hy)⟩
  · rw [List.head?_map] at hi
    obtain ⟨y, hy, rfl⟩ := Option.map_eq_some_iff.1 hi
    exact ⟨_, hcontents y (List.mem_append_right _ (List.mem_of_mem_head? hy)), hback y hy⟩

/-- The history with the new event. -/
theorem Invariant.of_linked {eq₁ : EventQ α} {front back : List Entry} {x : Entry}
    (hlinked : Linked eq' (front ++ x :: back)) (hframe : Frame eq₁ eq')
    (hcur : (front ++ back).length + 1 = eq₁.curNodes) (hnode : ∀ y ∈ front ++ back, y.node < eq₁.curNodes)
    (hx : x.node < eq₁.curNodes) (hid : x.id = hist.length)
    (hslots : Slots (usedSlots eq₁.reserveEvent pending (x :: (front ++ back))) eq₁.curEvents eq₁.maxNodes)
    (hle : eq₁.curEvents ≤ eq₁.maxNodes)
    (hcontents : ∀ y ∈ front ++ back, hist[y.id]? = some (eq₁.eventMem y.slot))
    (hchosen : Chosen eq₁.Less eq₁.maxNodes (hist ++ [eq₁.eventMem x.slot])
      (front.map Entry.id ++ hist.length :: back.map Entry.id)) :
    Invariant eq' pending (hist ++ [eq₁.eventMem x.slot]) (front ++ x :: back) := by
  have hmem : ∀ {y}, y ∈ front ++ x :: back → y = x ∨ y ∈ front ++ back := by
    intro y hy
    rwa [List.mem_append, List.mem_cons, or_left_comm, ← List.mem_append] at hy
  refine ⟨hlinked, ?_, fun y hy => ?_, ?_, ?_, fun y hy => ?_, ?_⟩
  · rw [hframe.curNodes, ← hcur, List.length_append, List.length_append, List.length_cons, Nat.add_assoc]
  · rw [hframe.curNodes]
    rcases hmem hy with rfl | hy
    · exact hx
    · exact hnode y hy
  · rw [hframe.reserveEvent, hframe.curEvents, hframe.maxNodes]
    exact hslots.perm (((List.perm_middle).map Entry.slot).append_right _)
  · rw [hframe.curEvents, hframe.maxNodes]
    exact hle
  · rw [hframe.eventMem]
    rcases hmem hy with rfl | hy
    · rw [hid, getElem?_append_self]
    · have hy' := hcontents y hy
      rw [List.getElem?_append_left (List.getElem?_eq_some_iff.1 hy').1, hy']
  · rw [List.map_append, List.map_cons, hid, hframe.maxNodes]
    unfold EventQ.Less at hchosen ⊢
    rw [hframe.sort]
    exact hchosen

/-- An event goes into a list that has room. -/
theorem Invariant.add_room [IsStrictWeakOrder α eq.Less] (h : Invariant eq pending hist entries)
    (hroom : eq.curNodes < eq.maxNodes) (hevent : event ∈ pending) :
    ∃ eq' r entries', sfeventqAdd eq (some event) = some (eq', r) ∧
      Invariant eq' (pending.erase event) (hist ++ [eq.eventMem event]) entries' ∧
      eq'.sort = eq.sort ∧ eq'.maxNodes = eq.maxNodes := by
  have hlinked := h.linked
  have hlinked' : Linked { eq with curNodes := eq.curNodes + 1 } entries :=
    ⟨hlinked.links, hlinked.head, hlinked.last, hlinked.event⟩
  have hlength : entries.length < eq.maxNodes := h.curNodes ▸ hroom
  have hnode : eq.curNodes ∉ entries.map Entry.node := by
    intro hmem
    obtain ⟨y, hy, hyn⟩ := List.mem_map.1 hmem
    exact (h.node_lt y hy).ne hyn
  obtain ⟨front, back, eq', rfl, hplace, hlist, hframe, hfront, hback⟩ :=
    @place_spec α { eq with curNodes := eq.curNodes + 1 } entries ⟨eq.curNodes, event, hist.length⟩
      (fun _ => hlinked') (congrArg (· + 1) h.curNodes) hlength.le hnode
  have hchosen := h.chosen
  rw [List.map_append] at hchosen
  have hplaced := placed_of_split h.contents hfront hback
  have hids : (front.map Entry.id ++ back.map Entry.id).length < eq.maxNodes := by
    rw [← List.map_append, List.length_map]
    exact hlength
  have hslots : Slots (usedSlots eq.reserveEvent (pending.erase event)
      (⟨eq.curNodes, event, hist.length⟩ :: (front ++ back))) eq.curEvents eq.maxNodes := by
    refine h.slots.perm (List.Perm.trans List.perm_middle.symm (List.Perm.append_left _ ?_))
    exact (List.perm_cons_erase hevent).symm.append_right _
  have hinv := Invariant.of_linked hlist hframe (congrArg (· + 1) h.curNodes)
    (fun y hy => Nat.lt_succ_of_lt (h.node_lt y hy)) (Nat.lt_succ_self _) rfl hslots h.events_le h.contents
    (hchosen.insert hplaced hids)
  refine ⟨eq', 0, _, ?_, hinv, hframe.sort, hframe.maxNodes⟩
  unfold sfeventqAdd getEventqNode
  dsimp only
  rw [if_neg (not_le.2 hroom), Option.bind_eq_bind, Option.bind_some]
  exact hplace

/-- When the list is full, a pending event is the only one, and there is no reserve. -/
theorem Invariant.pending_of_full (h : Invariant eq pending hist entries) (hfull : eq.maxNodes ≤ eq.curNodes)
    (hevent : event ∈ pending) : pending = [event] ∧ eq.reserveEvent = none ∧ entries.length = eq.maxNodes := by
  have hle := h.chosen.le
  have hcount := h.slots.count
  have hcur := h.curNodes
  have hevents := h.events_le
  have hpos := List.length_pos_of_mem hevent
  rw [List.length_map] at hle
  rw [usedSlots, List.length_append, List.length_append, List.length_map] at hcount
  have hpending : pending.length = 1 := by omega
  have hreserve : eq.reserveEvent.toList.length = 0 := by omega
  refine ⟨?_, ?_, by omega⟩
  · obtain ⟨y, rfl⟩ := List.length_eq_one_iff.1 hpending
    rw [List.mem_singleton.1 hevent]
  · cases hr : eq.reserveEvent with
    | none => rfl
    | some s =>
      rw [hr] at hreserve
      exact absurd hreserve Nat.one_ne_zero

/-- An event that is not less than the last one is left out, and becomes the reserve event. -/
theorem Invariant.add_drop [IsStrictWeakOrder α eq.Less] {l : Entry}
    (h : Invariant eq [event] hist (entries ++ [l])) (hreserve : eq.reserveEvent = none)
    (hfull : (entries ++ [l]).length = eq.maxNodes)
    (hless : eq.sort (eq.eventMem event) (eq.eventMem l.slot) = false) :
    sfeventqAdd eq (some event) = some ({ eq with reserveEvent := some event }, -1) ∧
      Invariant { eq with reserveEvent := some event } [] (hist ++ [eq.eventMem event]) (entries ++ [l]) := by
  have hlinked := h.linked
  have hslots := h.slots
  have hchosen := h.chosen
  rw [hreserve] at hslots
  rw [List.map_append, List.map_singleton] at hchosen
  have hl := h.contents l (List.mem_append_right _ (List.mem_singleton_self l))
  have hids : (entries.map Entry.id ++ [l.id]).length = eq.maxNodes := by
    rw [← hfull, List.length_append, List.length_append, List.length_map]
    rfl
  have hdrop := hchosen.drop hids hl (Bool.eq_false_iff.1 hless)
  constructor
  · unfold sfeventqAdd
    dsimp only
    rw [getEventqNode_drop (hfull ▸ h.curNodes.le) hlinked hless, Option.bind_eq_bind, Option.bind_some]
  · refine ⟨⟨hlinked.links, hlinked.head, hlinked.last, hlinked.event⟩, h.curNodes, h.node_lt, hslots, h.events_le,
      fun y hy => ?_, ?_⟩
    · have hy' := h.contents y hy
      rw [List.getElem?_append_left (List.getElem?_eq_some_iff.1 hy').1, hy']
    · rw [List.map_append, List.map_singleton]
      exact hdrop

/-- An event that is less than the last one takes its node, and the event of the last one becomes the reserve
event. -/
theorem Invariant.add_replace [IsStrictWeakOrder α eq.Less] {l : Entry}
    (h : Invariant eq [event] hist (entries ++ [l])) (hreserve : eq.reserveEvent = none)
    (hfull : (entries ++ [l]).length = eq.maxNodes)
    (hless : eq.sort (eq.eventMem event) (eq.eventMem l.slot) = true) :
    ∃ eq' r entries', sfeventqAdd eq (some event) = some (eq', r) ∧
      Invariant eq' [] (hist ++ [eq.eventMem event]) entries' ∧
      eq'.sort = eq.sort ∧ eq'.maxNodes = eq.maxNodes := by
  obtain ⟨eq₁, hget, hlinked, hframe₁⟩ := getEventqNode_replace (hfull ▸ h.curNodes.le) h.linked hless
  have hcur := h.curNodes
  have hmap : (entries ++ [l]).map Entry.node = entries.map Entry.node ++ [l.node] := by
    rw [List.map_append, List.map_singleton]
  have hnodup := h.linked.nodup
  rw [hmap] at hnodup
  have hnode : l.node ∉ entries.map Entry.node := fun hmem =>
    (List.nodup_append.1 hnodup).2.2 l.node hmem l.node (List.mem_singleton_self _) rfl
  have hlength : entries.length + 1 = eq₁.curNodes := by
    rw [hframe₁.curNodes]
    exact (List.length_append.symm.trans hcur)
  have hmax : eq₁.maxNodes = eq.maxNodes := hframe₁.maxNodes
  have hfuel : entries.length ≤ eq₁.maxNodes := by
    rw [hmax, ← hfull, List.length_append]
    exact Nat.le_add_right _ _
  obtain ⟨front, back, eq', rfl, hplace, hlist, hframe, hfront, hback⟩ :=
    @place_spec α eq₁ entries ⟨l.node, event, hist.length⟩ hlinked hlength hfuel hnode
  have hmem : eq₁.eventMem = eq.eventMem := hframe₁.eventMem
  have hsort : eq₁.sort = eq.sort := hframe₁.sort
  have hcontents : ∀ y ∈ front ++ back, hist[y.id]? = some (eq₁.eventMem y.slot) := fun y hy => by
    rw [hmem]
    exact h.contents y (List.mem_append_left _ hy)
  have hl := h.contents l (List.mem_append_right _ (List.mem_singleton_self l))
  have hplaced := placed_of_split hcontents hfront hback
  have hchosen := h.chosen
  rw [List.map_append, List.map_append, List.map_singleton] at hchosen
  have hids : (front.map Entry.id ++ back.map Entry.id ++ [l.id]).length = eq.maxNodes := by
    rw [← hfull, ← List.map_append, List.length_append, List.length_append, List.length_map]
    rfl
  rw [hsort, hmem] at hplaced
  have hnew := hchosen.replace hplaced hids hl hless
  have hslots := h.slots
  rw [hreserve] at hslots
  have hslots' : Slots (usedSlots eq₁.reserveEvent [] (⟨l.node, event, hist.length⟩ :: (front ++ back)))
      eq₁.curEvents eq₁.maxNodes := by
    rw [hframe₁.reserveEvent, hframe₁.curEvents, hmax]
    refine hslots.perm ?_
    have hmap' : (front ++ back ++ [l]).map Entry.slot = (front ++ back).map Entry.slot ++ [l.slot] := by
      rw [List.map_append, List.map_singleton]
    show (event :: ((front ++ back).map Entry.slot ++ [l.slot])).Perm
      ((front ++ back ++ [l]).map Entry.slot ++ [event])
    rw [hmap']
    exact (List.perm_append_singleton event _).symm
  have hnew' : Chosen eq₁.Less eq₁.maxNodes (hist ++ [eq₁.eventMem event])
      (front.map Entry.id ++ hist.length :: back.map Entry.id) := by
    unfold EventQ.Less at hnew ⊢
    rw [hsort, hmax, hmem]
    exact hnew
  have hle : eq₁.curEvents ≤ eq₁.maxNodes := by
    rw [hframe₁.curEvents, hmax]
    exact h.events_le
  have hinv := Invariant.of_linked hlist hframe hlength
    (fun y hy => hframe₁.curNodes ▸ h.node_lt y (List.mem_append_left _ hy))
    (hframe₁.curNodes ▸ h.node_lt l (List.mem_append_right _ (List.mem_singleton_self l))) rfl hslots' hle
    hcontents hnew'
  refine ⟨eq', 0, _, ?_, hmem ▸ hinv, hframe.sort.trans hsort, hframe.maxNodes.trans hmax⟩
  unfold sfeventqAdd
  dsimp only
  rw [hget, Option.bind_eq_bind, Option.bind_some]
  exact hplace

/-- **An addition** of a pending event returns. -/
theorem Invariant.add [IsStrictWeakOrder α eq.Less] (hmax : 1 ≤ eq.maxNodes) (h : Invariant eq pending hist entries)
    (hevent : event ∈ pending) :
    ∃ eq' r entries', sfeventqAdd eq (some event) = some (eq', r) ∧
      Invariant eq' (pending.erase event) (hist ++ [eq.eventMem event]) entries' ∧
      eq'.sort = eq.sort ∧ eq'.maxNodes = eq.maxNodes := by
  rcases lt_or_ge eq.curNodes eq.maxNodes with hroom | hfull
  · exact h.add_room hroom hevent
  · obtain ⟨rfl, hreserve, hlength⟩ := h.pending_of_full hfull hevent
    rw [List.erase_cons_head]
    rcases List.eq_nil_or_concat entries with rfl | ⟨entries, l, rfl⟩
    · rw [List.length_nil] at hlength
      omega
    · rw [List.concat_eq_append] at h hlength
      cases hless : eq.sort (eq.eventMem event) (eq.eventMem l.slot) with
      | false =>
        obtain ⟨hadd, hinv⟩ := h.add_drop hreserve hlength hless
        exact ⟨_, _, _, hadd, hinv, rfl, rfl⟩
      | true => exact h.add_replace hreserve hlength hless

/-- The invariant holds over a run. -/
theorem Run.invariant {eq₀ : EventQ α} [IsStrictWeakOrder α eq₀.Less] (hmax : 1 ≤ eq₀.maxNodes)
    (hrun : Run eq₀ eq pending hist) :
    ∃ entries, Invariant eq pending hist entries ∧ eq.sort = eq₀.sort ∧ eq.maxNodes = eq₀.maxNodes := by
  induction hrun with
  | reset => exact ⟨[], Invariant.reset eq₀, rfl, rfl⟩
  | @alloc eq pending hist _ ih =>
    obtain ⟨entries, h, hsort, hnodes⟩ := ih
    refine ⟨entries, h.alloc, ?_⟩
    unfold sfeventqEventAlloc
    split_ifs
    · cases eq.reserveEvent <;> exact ⟨hsort, hnodes⟩
    · exact ⟨hsort, hnodes⟩
  | fill x _ hevent ih =>
    obtain ⟨entries, h, hsort, hnodes⟩ := ih
    exact ⟨entries, h.fill hevent x, hsort, hnodes⟩
  | @add eq pending hist event eq' r _ hevent hadd ih =>
    obtain ⟨entries, h, hsort, hnodes⟩ := ih
    have horder : IsStrictWeakOrder α eq.Less := by
      unfold EventQ.Less
      rw [hsort]
      assumption
    obtain ⟨eq₁, r₁, entries₁, hadd₁, h₁, hsort₁, hnodes₁⟩ := h.add (hnodes ▸ hmax) hevent
    obtain ⟨rfl, rfl⟩ := Prod.mk.inj (Option.some.inj (hadd.symm.trans hadd₁))
    exact ⟨entries₁, h₁, hsort₁.trans hsort, hnodes₁.trans hnodes⟩
  | addNull _ hadd ih =>
    obtain ⟨rfl, rfl⟩ := Prod.mk.inj (Option.some.inj hadd)
    exact ih

/-- **In every run the list holds the best of the events that were added**, in order, with its links; the events
of the list and the reserve event have different slots, an allocation returns none of the list's, and an
addition returns. -/
theorem queue_best (eq₀ : EventQ α) [IsStrictWeakOrder α eq₀.Less] (hmax : 1 ≤ eq₀.maxNodes)
    (hrun : Run eq₀ eq pending hist) :
    (∃ entries : List Entry,
      Holds eq.links (entries.map Entry.node) ∧ eq.head = (entries.map Entry.node).head? ∧
      (entries ≠ [] → eq.last = (entries.map Entry.node).getLast?) ∧
      (∀ x ∈ entries, eq.event x.node = some x.slot ∧ hist[x.id]? = some (eq.eventMem x.slot)) ∧
      Chosen eq₀.Less eq₀.maxNodes hist (entries.map Entry.id) ∧
      (entries.map Entry.slot ++ eq.reserveEvent.toList).Nodup ∧
      ∀ s, (sfeventqEventAlloc eq).2 = some s → s ∉ entries.map Entry.slot) ∧
    ∀ event ∈ pending, ∃ eq' r, sfeventqAdd eq (some event) = some (eq', r) := by
  obtain ⟨entries, h, hsort, hnodes⟩ := hrun.invariant hmax
  have hless : eq.Less = eq₀.Less := by
    unfold EventQ.Less
    rw [hsort]
  have horder : IsStrictWeakOrder α eq.Less := hless ▸ inferInstance
  refine ⟨⟨entries, h.linked.links, h.linked.head, h.linked.last,
    fun x hx => ⟨h.linked.event x hx, h.contents x hx⟩, hless ▸ hnodes ▸ h.chosen, ?_,
    fun s hs => (h.alloc_fresh hs).1⟩, fun event hevent => ?_⟩
  · exact h.slots.nodup.sublist ((List.sublist_append_right _ _).append_left _)
  · obtain ⟨eq', r, -, hadd, -⟩ := h.add (hnodes ▸ hmax) hevent
    exact ⟨eq', r, hadd⟩

/-- A queue of two numbers, the greater ones first. -/
def greatest : EventQ ℕ where
  maxNodes := 2
  sort x y := decide (y < x)
  links := ⟨fun _ => none, fun _ => none⟩
  event _ := none
  eventMem _ := 0
  head := none
  last := none
  curNodes := 0
  curEvents := 0
  reserveEvent := none

theorem greatest_weakOrder : IsStrictWeakOrder ℕ greatest.Less where
  irrefl x h := lt_irrefl x (of_decide_eq_true h)
  trans x y z hxy hyz := decide_eq_true ((of_decide_eq_true hyz).trans (of_decide_eq_true hxy))
  incomp_trans x y z := by
    unfold EventQ.Less greatest
    simp only [decide_eq_true_eq, not_lt]
    omega

/-- An event is allocated, filled in and added. -/
theorem Run.step {eq₀ : EventQ α} {slot : ℕ} (hrun : Run eq₀ eq [] hist) (x : α)
    (hslot : (sfeventqEventAlloc eq).2 = some slot) {eq' : EventQ α} {r : ℤ}
    (hadd : sfeventqAdd (Eventq.fill (sfeventqEventAlloc eq).1 slot x) (some slot) = some (eq', r)) :
    Run eq₀ eq' [] (hist ++ [x]) := by
  have halloc := hrun.alloc
  rw [hslot] at halloc
  have hrun' := ((halloc.fill x List.mem_cons_self).add List.mem_cons_self hadd)
  rw [show (Eventq.fill (sfeventqEventAlloc eq).1 slot x).eventMem slot = x from Function.update_self _ _ _] at hrun'
  rw [Option.toList_some, List.singleton_append, List.erase_cons_head] at hrun'
  exact hrun'

theorem greatest_run : ∃ eq, Run greatest eq [] [5, 7, 6] :=
  ⟨_, (((@Run.reset ℕ greatest).step 5 rfl rfl).step 7 rfl rfl).step 6 rfl rfl⟩

/-- Of three numbers, the two greatest. -/
theorem queue_best_three : ∃ eq, Run greatest eq [] [5, 7, 6] ∧ ∃ entries : List Entry,
    Holds eq.links (entries.map Entry.node) ∧ Chosen greatest.Less 2 [5, 7, 6] (entries.map Entry.id) := by
  have horder := greatest_weakOrder
  obtain ⟨eq, hrun⟩ := greatest_run
  obtain ⟨⟨entries, hlinks, -, -, -, hchosen, -⟩, -⟩ := queue_best greatest (by decide) hrun
  exact ⟨eq, hrun, entries, hlinks, hchosen⟩

end Runs

end Snort.Eventq
