import Mathlib.Tactic

/-!
# Breadth first search of a tree

`Layered root kids depth nodes`: the finite set `nodes` is a tree in which the children of a node are one
level below it.  `Visit done queue` is what holds between two rounds of a search from the root with a
queue: the nodes in `done` have been visited, those in `queue` are next.  The root itself is in neither.

* `Visit.step`: a round takes a node from the front and puts its children at the back.
* `Visit.shallow`: what is less deep than the front of the queue has been visited.
* `Visit.mem_done`: when the queue is empty all nodes have been visited.
-/

namespace Bfs

variable {α : Type*}

/-- See the module documentation. -/
structure Layered (root : α) (kids : α → List α) (depth : α → ℕ) (nodes : Finset α) : Prop where
  root_mem : root ∈ nodes
  kid : ∀ {s t}, s ∈ nodes → t ∈ kids s → t ∈ nodes ∧ t ≠ root ∧ depth t = depth s + 1
  parent : ∀ {t}, t ∈ nodes → t ≠ root → ∃ s ∈ nodes, t ∈ kids s
  unique : ∀ {s s' t}, s ∈ nodes → s' ∈ nodes → t ∈ kids s → t ∈ kids s' → s = s'
  nodup : ∀ {s}, s ∈ nodes → (kids s).Nodup

/-- See the module documentation. -/
structure Visit (root : α) (kids : α → List α) (depth : α → ℕ) (nodes : Finset α)
    (done queue : List α) : Prop where
  nodup : (done ++ queue).Nodup
  range : ∀ {s}, s ∈ done ++ queue → s ∈ nodes ∧ s ≠ root
  behind : ∀ {s t}, s = root ∨ s ∈ done → t ∈ kids s → t ∈ done ++ queue
  parent : ∀ {s t}, t ∈ done ++ queue → s ∈ nodes → t ∈ kids s → s = root ∨ s ∈ done
  near : queue.Pairwise fun s t => depth s ≤ depth t ∧ depth t ≤ depth s + 1

variable {root : α} {kids : α → List α} {depth : α → ℕ} {nodes : Finset α}

/-- The search starts with the children of the root. -/
theorem Layered.start (h : Layered root kids depth nodes) :
    Visit root kids depth nodes [] (kids root) where
  nodup := h.nodup h.root_mem
  range ht := by
    obtain ⟨hn, hne, -⟩ := h.kid h.root_mem ht
    exact ⟨hn, hne⟩
  behind hs ht := by
    rcases hs with rfl | hs
    · exact ht
    · cases hs
  parent ht hs hkid := Or.inl (h.unique hs h.root_mem hkid ht)
  near := by
    refine List.pairwise_of_forall_mem_list fun s hs t ht => ?_
    rw [(h.kid h.root_mem hs).2.2, (h.kid h.root_mem ht).2.2]
    exact ⟨le_rfl, Nat.le_succ _⟩

namespace Visit

variable {done queue : List α} {r : α}

theorem length_lt [DecidableEq α] (h : Visit root kids depth nodes done queue) (hroot : root ∈ nodes) :
    (done ++ queue).length < nodes.card := by
  have hsub : (done ++ queue).toFinset ⊆ nodes.erase root := fun s hs => by
    obtain ⟨hn, hne⟩ := h.range (List.mem_toFinset.1 hs)
    exact Finset.mem_erase.2 ⟨hne, hn⟩
  have hle := Finset.card_le_card hsub
  rw [List.toFinset_card_of_nodup h.nodup, Finset.card_erase_of_mem hroot] at hle
  have hpos := Finset.card_pos.2 ⟨root, hroot⟩
  omega

/-- A node that has not been queued lies below one in the queue. -/
theorem below (h : Visit root kids depth nodes done queue) (htree : Layered root kids depth nodes) :
    ∀ {s}, s ∈ nodes → s ≠ root → s ∉ done ++ queue → ∃ r ∈ queue, depth r < depth s := by
  intro s
  induction hd : depth s using Nat.strong_induction_on generalizing s with
  | _ d ih =>
    intro hs hne hnot
    obtain ⟨r, hr, hkid⟩ := htree.parent hs hne
    have hdepth := (htree.kid hr hkid).2.2
    by_cases hq : r ∈ queue
    · exact ⟨r, hq, by omega⟩
    · have hvisited : ¬ (r = root ∨ r ∈ done) := fun hr => hnot (h.behind hr hkid)
      rw [not_or] at hvisited
      obtain ⟨r', hr', hlt⟩ := ih (depth r) (by omega) rfl hr hvisited.1 fun hmem =>
        (List.mem_append.1 hmem).elim hvisited.2 hq
      exact ⟨r', hr', by omega⟩

theorem front_le (h : Visit root kids depth nodes done (r :: queue)) {s : α} (hs : s ∈ r :: queue) :
    depth r ≤ depth s := by
  rcases List.mem_cons.1 hs with rfl | hs
  · exact le_rfl
  · exact ((List.pairwise_cons.1 h.near).1 s hs).1

/-- What is not deeper than the front of the queue has been queued. -/
theorem queued (h : Visit root kids depth nodes done (r :: queue))
    (htree : Layered root kids depth nodes) {s : α} (hs : s ∈ nodes) (hne : s ≠ root)
    (hle : depth s ≤ depth r) : s ∈ done ++ r :: queue := by
  by_contra hnot
  obtain ⟨t, ht, hlt⟩ := h.below htree hs hne hnot
  have := h.front_le ht
  omega

/-- What is less deep than the front of the queue has been visited. -/
theorem shallow (h : Visit root kids depth nodes done (r :: queue))
    (htree : Layered root kids depth nodes) {s : α} (hs : s ∈ nodes) (hne : s ≠ root)
    (hlt : depth s < depth r) : s ∈ done := by
  rcases List.mem_append.1 (h.queued htree hs hne hlt.le) with hdone | hq
  · exact hdone
  · exact absurd (h.front_le hq) (not_le.2 hlt)

theorem notMem_done (h : Visit root kids depth nodes done (r :: queue)) : r ∉ done := fun hmem =>
  (List.nodup_append.1 h.nodup).2.2 r hmem r List.mem_cons_self rfl

/-- The children of the front of the queue have not been queued. -/
theorem fresh (h : Visit root kids depth nodes done (r :: queue)) {t : α} (ht : t ∈ kids r) :
    t ∉ done ++ r :: queue := fun hmem => by
  obtain ⟨hr, hne⟩ := h.range (List.mem_append_right done List.mem_cons_self)
  rcases h.parent hmem hr ht with hroot | hdone
  · exact hne hroot
  · exact h.notMem_done hdone

/-- One round. -/
theorem step (h : Visit root kids depth nodes done (r :: queue))
    (htree : Layered root kids depth nodes) :
    Visit root kids depth nodes (done ++ [r]) (queue ++ kids r) := by
  have hlist : (done ++ [r]) ++ (queue ++ kids r) = (done ++ r :: queue) ++ kids r := by
    rw [List.append_assoc, List.append_assoc, List.singleton_append, List.cons_append]
  obtain ⟨hr, hne⟩ := h.range (List.mem_append_right done List.mem_cons_self)
  obtain ⟨hhead, htail⟩ := List.pairwise_cons.1 h.near
  constructor
  · rw [hlist]
    refine List.nodup_append.2 ⟨h.nodup, htree.nodup hr, ?_⟩
    rintro s hs t ht rfl
    exact h.fresh ht hs
  · intro s hs
    rw [hlist] at hs
    rcases List.mem_append.1 hs with hs | hs
    · exact h.range hs
    · obtain ⟨hn, hs0, -⟩ := htree.kid hr hs
      exact ⟨hn, hs0⟩
  · intro s t hs ht
    rw [hlist]
    rcases hs with hs | hs
    · exact List.mem_append_left _ (h.behind (Or.inl hs) ht)
    · rcases List.mem_append.1 hs with hs | hs
      · exact List.mem_append_left _ (h.behind (Or.inr hs) ht)
      · rw [List.mem_singleton.1 hs] at ht
        exact List.mem_append_right _ ht
  · intro s t ht hs hkid
    rw [hlist] at ht
    rcases List.mem_append.1 ht with ht | ht
    · exact (h.parent ht hs hkid).imp_right (List.mem_append_left _)
    · rw [htree.unique hs hr hkid ht]
      exact Or.inr (List.mem_append_right _ (List.mem_singleton_self r))
  · refine List.pairwise_append.2 ⟨htail, ?_, ?_⟩
    · refine List.pairwise_of_forall_mem_list fun s hs t ht => ?_
      rw [(htree.kid hr hs).2.2, (htree.kid hr ht).2.2]
      exact ⟨le_rfl, Nat.le_succ _⟩
    · intro s hs t ht
      have := hhead s hs
      rw [(htree.kid hr ht).2.2]
      omega

/-- When the queue is empty all nodes have been visited. -/
theorem mem_done (h : Visit root kids depth nodes done []) (htree : Layered root kids depth nodes)
    {s : α} (hs : s ∈ nodes) (hne : s ≠ root) : s ∈ done := by
  by_contra hnot
  obtain ⟨r, hr, -⟩ := h.below htree hs hne (by rwa [List.append_nil])
  cases hr

end Visit

end Bfs
