import Snort.Lib.Links
import Snort.Lib.Chosen

/-!
# The event queue: `sfeventq.c`

Nodes are the indices of `node_mem`, events the slots of `event_mem`, with the reserve event in the last of
`max_nodes + 1`; a null pointer is `none`.  Following a null pointer, or a list without end, gives `none`.

* `Entry`, `Linked`: the nodes of the list with their events;
* `findPlace_spec`: where an event goes;
* **`placeNode_spec`**, `placeNode_first`: a node is put in its place.
-/

namespace Snort.Eventq

structure EventQ (α : Type) where
  maxNodes : ℕ
  /-- The first event goes in front of the second one. -/
  sort : α → α → Bool
  /-- `next` and `prev` of the nodes. -/
  links : Links ℕ
  /-- `event` of the nodes. -/
  event : ℕ → Option ℕ
  eventMem : ℕ → α
  head : Option ℕ
  last : Option ℕ
  curNodes : ℕ
  curEvents : ℕ
  reserveEvent : Option ℕ

section Operations

variable {α : Type} (eq : EventQ α)

/-- `sfeventq_reset`. -/
def sfeventqReset : EventQ α :=
  { eq with head := none, curNodes := 0, curEvents := 0, reserveEvent := some eq.maxNodes }

/-- `sfeventq_event_alloc`. -/
def sfeventqEventAlloc : EventQ α × Option ℕ :=
  if eq.maxNodes ≤ eq.curEvents then
    match eq.reserveEvent with
    | none => (eq, none)
    | some event => ({ eq with reserveEvent := none }, some event)
  else ({ eq with curEvents := eq.curEvents + 1 }, some eq.curEvents)

/-- The user fills in an event. -/
def fill (event : ℕ) (x : α) : EventQ α := { eq with eventMem := Function.update eq.eventMem event x }

/-- `get_eventq_node`. -/
def getEventqNode (event : ℕ) : Option (EventQ α × Option ℕ) :=
  if eq.maxNodes ≤ eq.curNodes then do
    let last ← eq.last
    let lastEvent ← eq.event last
    if eq.sort (eq.eventMem event) (eq.eventMem lastEvent) = false then
      some ({ eq with reserveEvent := some event }, none)
    else
      let eq := { eq with reserveEvent := some lastEvent, event := Function.update eq.event last (some event) }
      match eq.links.prev last with
      | some prev => some ({ eq with last := some prev, links := eq.links.setNext prev none }, some last)
      | none => some (eq, some last)
  else some ({ eq with curNodes := eq.curNodes + 1 }, some eq.curNodes)

/-- The node in front of which an event goes; `for(tmp = eq->head; tmp; tmp = tmp->next)`. -/
def findPlace (event : ℕ) : ℕ → Option ℕ → Option (Option ℕ)
  | _, none => some none
  | 0, some _ => none
  | fuel + 1, some tmp => do
    let tmpEvent ← eq.event tmp
    if eq.sort (eq.eventMem event) (eq.eventMem tmpEvent) then some (some tmp)
    else findPlace event fuel (eq.links.next tmp)

/-- The links of a node that is put in front of `tmp`. -/
def insertBefore (node tmp : ℕ) : EventQ α :=
  let prev := eq.links.prev tmp
  { eq with
    links := eq.links.link prev node (some tmp)
    head := if prev = none then some node else eq.head }

/-- The links of a node that is put at the end. -/
def insertLast (node last : ℕ) : EventQ α :=
  { eq with links := eq.links.link (some last) node none, last := some node }

/-- `node->event = event`, and the links of the node are reset. -/
def setNode (node event : ℕ) : EventQ α :=
  { eq with
    event := Function.update eq.event node (some event)
    links := (eq.links.setNext node none).setPrev node none }

/-- The node is put into the list. -/
def placeNode (node event : ℕ) : Option (EventQ α × ℤ) :=
  if eq.curNodes = 1 then some ({ eq with head := some node, last := some node }, 0)
  else do
    match ← findPlace eq event eq.maxNodes eq.head with
    | some tmp => some (insertBefore eq node tmp, 0)
    | none =>
      let last ← eq.last
      some (insertLast eq node last, 0)

/-- `sfeventq_add`. -/
def sfeventqAdd (event : Option ℕ) : Option (EventQ α × ℤ) :=
  match event with
  | none => some (eq, -1)
  | some event => do
    match ← getEventqNode eq event with
    | (eq, none) => some (eq, -1)
    | (eq, some node) => placeNode (setNode eq node event) node event

end Operations

/-! ## What adding an event does to the list -/

open Links Selection

/-- A node of the list, its slot, and which of the events that were added it is. -/
structure Entry where
  node : ℕ
  slot : ℕ
  id : ℕ

section Lists

variable {α : Type}

/-- The nodes of the list are linked, and have their events. -/
structure Linked (eq : EventQ α) (entries : List Entry) : Prop where
  links : Holds eq.links (entries.map Entry.node)
  head : eq.head = (entries.map Entry.node).head?
  last : entries ≠ [] → eq.last = (entries.map Entry.node).getLast?
  event : ∀ x ∈ entries, eq.event x.node = some x.slot

/-- What adding a node leaves as it is. -/
structure Frame (eq eq' : EventQ α) : Prop where
  maxNodes : eq'.maxNodes = eq.maxNodes
  sort : eq'.sort = eq.sort
  eventMem : eq'.eventMem = eq.eventMem
  curNodes : eq'.curNodes = eq.curNodes
  curEvents : eq'.curEvents = eq.curEvents
  reserveEvent : eq'.reserveEvent = eq.reserveEvent

variable {eq : EventQ α} {entries : List Entry} {node event : ℕ}

theorem Linked.nodup (h : Linked eq entries) : (entries.map Entry.node).Nodup := h.links.nodup

variable (event) in
/-- The search goes along a part of the list. -/
theorem findPlace_spec {k : Links ℕ} (hk : eq.links = k) {p : Option ℕ} (hseg : Seg k p (entries.map Entry.node) none)
    (hevent : ∀ x ∈ entries, eq.event x.node = some x.slot) {fuel : ℕ} (hfuel : entries.length ≤ fuel) :
    ∃ front back, entries = front ++ back ∧
      findPlace eq event fuel (entries.map Entry.node).head? = some (back.map Entry.node).head? ∧
      (∀ x ∈ front, eq.sort (eq.eventMem event) (eq.eventMem x.slot) = false) ∧
      ∀ x, back.head? = some x → eq.sort (eq.eventMem event) (eq.eventMem x.slot) = true := by
  induction entries generalizing fuel p with
  | nil =>
    refine ⟨[], [], rfl, ?_, fun x hx => absurd hx List.not_mem_nil, fun x hx => absurd hx.symm (Option.some_ne_none x)⟩
    cases fuel <;> rfl
  | cons x entries ih =>
    obtain ⟨fuel, rfl⟩ := Nat.exists_eq_add_of_le' (show 1 ≤ fuel from (Nat.succ_pos _).trans_le hfuel)
    obtain ⟨-, hnext, hseg⟩ := hseg
    have hx := hevent x List.mem_cons_self
    rw [Option.or_none] at hnext
    have hhead : ((x :: entries).map Entry.node).head? = some x.node := rfl
    rw [hhead, findPlace, hx, Option.bind_eq_bind, Option.bind_some]
    by_cases hless : eq.sort (eq.eventMem event) (eq.eventMem x.slot) = true
    · rw [if_pos hless]
      refine ⟨[], x :: entries, rfl, rfl, fun y hy => absurd hy List.not_mem_nil, fun y hy => ?_⟩
      obtain rfl : x = y := Option.some.inj hy
      exact hless
    · obtain ⟨front, back, rfl, hfind, hfront, hback⟩ :=
        ih hseg (fun y hy => hevent y (List.mem_cons_of_mem x hy)) (Nat.le_of_succ_le_succ hfuel)
      rw [if_neg hless, hk, hnext, hfind]
      refine ⟨x :: front, back, rfl, rfl, fun y hy => ?_, hback⟩
      rcases List.mem_cons.1 hy with rfl | hy
      · exact Bool.eq_false_iff.2 hless
      · exact hfront y hy

theorem Frame.trans {eq₁ eq₂ : EventQ α} (h : Frame eq eq₁) (h' : Frame eq₁ eq₂) : Frame eq eq₂ :=
  ⟨h'.maxNodes.trans h.maxNodes, h'.sort.trans h.sort, h'.eventMem.trans h.eventMem, h'.curNodes.trans h.curNodes,
    h'.curEvents.trans h.curEvents, h'.reserveEvent.trans h.reserveEvent⟩

/-- The first node. -/
theorem placeNode_first (hcur : eq.curNodes = 1) (event node id : ℕ) :
    ∃ eq', placeNode (setNode eq node event) node event = some (eq', 0) ∧ Linked eq' [⟨node, event, id⟩] ∧
      Frame eq eq' := by
  refine ⟨_, if_pos hcur, ⟨⟨List.nodup_singleton _, ?_⟩, rfl, fun _ => rfl, fun x hx => ?_⟩, rfl, rfl, rfl, rfl, rfl, rfl⟩
  · refine ⟨setPrev_prev_self _ _ _, ?_, trivial⟩
    show ((eq.links.setNext node none).setPrev node none).next node = _
    rw [setPrev_next]
    exact setNext_next_self _ _ _
  · obtain rfl := List.mem_singleton.1 hx
    exact Function.update_self _ _ _

variable (event) in
/-- The fields of a node that is not in the list. -/
theorem Linked.setNode (h : Linked eq entries) (hnode : node ∉ entries.map Entry.node) :
    Linked (setNode eq node event) entries := by
  have hne : ∀ y ∈ entries.map Entry.node, y ≠ node := fun y hy hyn => hnode (hyn ▸ hy)
  refine ⟨h.links.congr fun y hy => ⟨?_, ?_⟩, h.head, h.last, fun x hx => ?_⟩
  · show ((eq.links.setNext node none).setPrev node none).next y = _
    rw [setPrev_next, setNext_next_of_ne (hne y hy)]
  · show ((eq.links.setNext node none).setPrev node none).prev y = _
    rw [setPrev_prev_of_ne (hne y hy), setNext_prev]
  · show Function.update eq.event node (some event) x.node = some x.slot
    rw [Function.update_of_ne (hne x.node (List.mem_map_of_mem hx)), h.event x hx]

/-- The events of a list with one more node. -/
theorem Linked.event_insert {front back : List Entry} {x : Entry} (h : Linked eq (front ++ back))
    (hx : eq.event x.node = some x.slot) : ∀ y ∈ front ++ x :: back, eq.event y.node = some y.slot := by
  intro y hy
  rw [List.mem_append, List.mem_cons, or_left_comm, ← List.mem_append] at hy
  rcases hy with rfl | hy
  · exact hx
  · exact h.event y hy

/-- A node is put in front of another one. -/
theorem Linked.insertBefore {front back : List Entry} {x y : Entry} (h : Linked eq (front ++ y :: back))
    (hnode : x.node ∉ (front ++ y :: back).map Entry.node) (hx : eq.event x.node = some x.slot) :
    Linked (insertBefore eq x.node y.node) (front ++ x :: y :: back) := by
  have hlinks := h.links
  have hhead := h.head
  have hlast := h.last (List.append_ne_nil_of_right_ne_nil front (List.cons_ne_nil y back))
  rw [List.map_append, List.map_cons] at hlinks hnode hhead hlast
  have hprev := hlinks.cell.2
  refine ⟨?_, ?_, fun _ => ?_, h.event_insert hx⟩
  · show Holds (eq.links.link (eq.links.prev y.node) x.node (some y.node)) _
    rw [hprev, List.map_append, List.map_cons, List.map_cons]
    exact hlinks.link hnode
  · show (if eq.links.prev y.node = none then some x.node else eq.head) = _
    rw [hprev, hhead, List.map_append]
    cases front with
    | nil => rfl
    | cons z front =>
      rw [if_neg]
      · rfl
      · rw [List.map_cons, List.getLast?_cons]
        exact Option.some_ne_none _
  · show eq.last = _
    rw [hlast, List.map_append, List.map_cons, List.map_cons, List.getLast?_append_cons, List.getLast?_append_cons,
      List.getLast?_cons_cons]

/-- A node is put at the end. -/
theorem Linked.insertLast {x : Entry} {last : ℕ} (h : Linked eq entries) (hne : entries ≠ [])
    (hlast : eq.last = some last) (hnode : x.node ∉ entries.map Entry.node) (hx : eq.event x.node = some x.slot) :
    Linked (insertLast eq x.node last) (entries ++ [x]) := by
  have hlast' := h.last hne
  have hlinks : Holds eq.links (entries.map Entry.node ++ []) := by
    rw [List.append_nil]
    exact h.links
  rw [← List.append_nil (entries.map Entry.node)] at hnode
  refine ⟨?_, ?_, fun _ => ?_, ?_⟩
  · show Holds (eq.links.link (some last) x.node none) _
    rw [← hlast, hlast', List.map_append]
    exact hlinks.link hnode
  · show eq.head = _
    rw [h.head, List.map_append, List.head?_append]
    cases entries with
    | nil => exact absurd rfl hne
    | cons y entries => rfl
  · rw [List.map_append, List.map_singleton, List.getLast?_concat]
    rfl
  · have hentries : Linked eq (entries ++ []) := by
      rw [List.append_nil]
      exact h
    exact hentries.event_insert hx

/-- **A node is put in its place.** -/
theorem placeNode_spec {x : Entry} (h : Linked eq entries) (hne : entries ≠ []) (hcur : eq.curNodes ≠ 1)
    (hfuel : entries.length ≤ eq.maxNodes) (hnode : x.node ∉ entries.map Entry.node)
    (hx : eq.event x.node = some x.slot) :
    ∃ front back eq', entries = front ++ back ∧ placeNode eq x.node x.slot = some (eq', 0) ∧
      Linked eq' (front ++ x :: back) ∧ Frame eq eq' ∧
      (∀ y ∈ front, eq.sort (eq.eventMem x.slot) (eq.eventMem y.slot) = false) ∧
      ∀ y, back.head? = some y → eq.sort (eq.eventMem x.slot) (eq.eventMem y.slot) = true := by
  obtain ⟨front, back, rfl, hfind, hfront, hback⟩ := findPlace_spec x.slot rfl h.links.seg h.event hfuel
  rw [← h.head] at hfind
  unfold placeNode
  rw [if_neg hcur, hfind, Option.bind_eq_bind, Option.bind_some]
  cases back with
  | cons y back =>
    exact ⟨front, y :: back, _, rfl, rfl, h.insertBefore hnode hx, ⟨rfl, rfl, rfl, rfl, rfl, rfl⟩, hfront, hback⟩
  | nil =>
    rw [List.append_nil] at h hne hnode
    obtain ⟨last, hlast⟩ : ∃ last, eq.last = some last := by
      have hne' : front.map Entry.node ≠ [] := fun hnil => hne (List.map_eq_nil_iff.1 hnil)
      exact ⟨_, (h.last hne).trans (List.getLast?_eq_some_getLast hne')⟩
    refine ⟨front, [], insertLast eq x.node last, rfl, ?_, h.insertLast hne hlast hnode hx,
      ⟨rfl, rfl, rfl, rfl, rfl, rfl⟩, hfront, hback⟩
    rw [hlast]
    rfl

/-- A node that has been taken, and is not in the list. -/
theorem place_spec {x : Entry} (h : entries ≠ [] → Linked eq entries) (hcur : entries.length + 1 = eq.curNodes)
    (hfuel : entries.length ≤ eq.maxNodes) (hnode : x.node ∉ entries.map Entry.node) :
    ∃ front back eq', entries = front ++ back ∧
      placeNode (setNode eq x.node x.slot) x.node x.slot = some (eq', 0) ∧ Linked eq' (front ++ x :: back) ∧
      Frame eq eq' ∧ (∀ y ∈ front, eq.sort (eq.eventMem x.slot) (eq.eventMem y.slot) = false) ∧
      ∀ y, back.head? = some y → eq.sort (eq.eventMem x.slot) (eq.eventMem y.slot) = true := by
  by_cases hne : entries = []
  · subst hne
    obtain ⟨eq', hplace, hlinked, hframe⟩ := placeNode_first hcur.symm x.slot x.node x.id
    exact ⟨[], [], eq', rfl, hplace, hlinked, hframe, fun y hy => absurd hy List.not_mem_nil,
      fun y hy => absurd hy.symm (Option.some_ne_none y)⟩
  · have hpos := List.length_pos_of_ne_nil hne
    have hcur' : (setNode eq x.node x.slot).curNodes ≠ 1 := by
      show eq.curNodes ≠ 1
      omega
    obtain ⟨front, back, eq', hsplit, hplace, hlinked, hframe, hfront, hback⟩ :=
      placeNode_spec ((h hne).setNode x.slot hnode) hne hcur' hfuel hnode (Function.update_self _ _ _)
    have hset : Frame eq (setNode eq x.node x.slot) := ⟨rfl, rfl, rfl, rfl, rfl, rfl⟩
    exact ⟨front, back, eq', hsplit, hplace, hlinked, hset.trans hframe, hfront, hback⟩

end Lists

end Snort.Eventq
