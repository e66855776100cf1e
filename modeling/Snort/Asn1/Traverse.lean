import Snort.Asn1.Decode

/-!
# Traversing the nodes

* `Way`: what holds of a traversal, with the links followed so far;
* `good_visit`: a turn keeps it and lets `remaining` decrease;
* `asn1Traverse_once`: a forest is traversed in finitely many turns, with at most one call for each node;
* **`asn1_safe`**: decoding a buffer and traversing the result.
-/

namespace Snort.Asn1

open Loop

variable {d : Decoding} {detectFunc : Asn1Type → Bool}

/-- A link was followed from a node that was visited, and not from one that is still on the stack to its peer. -/
def Traversal.Past (v : Traversal) : Slot → Prop
  | .root => True
  | .cnext i => i ∈ v.calls
  | .next i => i ∈ v.calls ∧ i ∉ v.stack

/-- What holds of a traversal, with the links followed so far. -/
structure Way (d : Decoding) (followed : Set Slot) (v : Traversal) : Prop where
  known : ∀ i ∈ v.calls, ∃ σ ∈ followed, d.link σ = some i
  past : ∀ σ ∈ followed, v.Past σ
  calls_nodup : v.calls.Nodup
  stack_nodup : v.stack.Nodup
  stack_calls : ∀ i ∈ v.stack, i ∈ v.calls
  stack_le : v.stack.length ≤ maxStack

variable {followed : Set Slot} {v : Traversal} {σ : Slot} {i : ℕ}

/-- A link that was not followed leads to a node that was not visited. -/
theorem Way.not_mem_calls (h : Way d followed v) (hforest : Forest d) (hσ : σ ∉ followed)
    (hlink : d.link σ = some i) : i ∉ v.calls := by
  intro hi
  obtain ⟨τ, hτ, hlink'⟩ := h.known i hi
  rw [hforest.unique σ τ i hlink hlink'] at hσ
  exact hσ hτ

theorem Way.length_calls_le (h : Way d followed v) (hforest : Forest d) : v.calls.length ≤ d.pool.length := by
  have hsub : v.calls ⊆ List.range d.pool.length := by
    intro i hi
    obtain ⟨σ, -, hlink⟩ := h.known i hi
    exact List.mem_range.2 (hforest.below σ i hlink).2
  simpa using (List.subperm_of_subset h.calls_nodup hsub).length_le

/-- A node is about to be visited. -/
structure Ahead (d : Decoding) (followed : Set Slot) (v : Traversal) (i : ℕ) : Prop where
  way : Way d followed v
  linked : ∃ σ ∈ followed, d.link σ = some i
  unvisited : i ∉ v.calls

/-- The next link of a node that is done with. -/
theorem Way.follow (h : Way d followed v) (hforest : Forest d) (hσ : σ ∉ followed) (hpast : v.Past σ) :
    Way d (insert σ followed) v ∧ ∀ i, d.link σ = some i → Ahead d (insert σ followed) v i := by
  have hway : Way d (insert σ followed) v := by
    refine ⟨fun i hi => ?_, fun τ hτ => ?_, h.calls_nodup, h.stack_nodup, h.stack_calls, h.stack_le⟩
    · obtain ⟨τ, hτ, hlink⟩ := h.known i hi
      exact ⟨τ, Set.mem_insert_of_mem _ hτ, hlink⟩
    · rcases Set.mem_insert_iff.1 hτ with rfl | hτ
      · exact hpast
      · exact h.past τ hτ
  refine ⟨hway, fun i hlink => ⟨hway, ⟨σ, Set.mem_insert _ _, hlink⟩, h.not_mem_calls hforest hσ hlink⟩⟩

/-- A node without contents is visited. -/
theorem Ahead.call (h : Ahead d followed v i) : Way d followed (v.call i) := by
  obtain ⟨hway, hlinked, hnew⟩ := h
  refine ⟨fun j hj => ?_, fun σ hσ => ?_, List.nodup_cons.2 ⟨hnew, hway.calls_nodup⟩, hway.stack_nodup,
    fun j hj => List.mem_cons_of_mem _ (hway.stack_calls j hj), hway.stack_le⟩
  · rcases List.mem_cons.1 hj with rfl | hj
    · exact hlinked
    · exact hway.known j hj
  · have := hway.past σ hσ
    cases σ with
    | root => trivial
    | cnext j => exact List.mem_cons_of_mem _ this
    | next j => exact ⟨List.mem_cons_of_mem _ this.1, this.2⟩

/-- A construct is visited. -/
theorem Ahead.enter (h : Ahead d followed v i) (hfull : v.stack.length < maxStack) :
    Way d followed ({ v with stack := i :: v.stack }.call i) := by
  have hcall := h.call
  have hnotin : i ∉ v.stack := fun hi => h.unvisited (h.way.stack_calls i hi)
  refine ⟨hcall.known, fun σ hσ => ?_, hcall.calls_nodup, List.nodup_cons.2 ⟨hnotin, h.way.stack_nodup⟩, ?_, hfull⟩
  · cases σ with
    | root => trivial
    | cnext j => exact hcall.past _ hσ
    | next j =>
      obtain ⟨hj, hstack⟩ := hcall.past _ hσ
      have hne : j ≠ i := by
        rintro rfl
        exact h.unvisited (h.way.past _ hσ).1
      exact ⟨hj, by simpa [Traversal.call, hne] using hstack⟩
  · intro j hj
    rcases List.mem_cons.1 hj with rfl | hj
    · exact List.mem_cons_self
    · exact List.mem_cons_of_mem _ (h.way.stack_calls j hj)

/-! ### Turns -/

/-- What holds between two turns, depending on where the function is. -/
def OnWay (d : Decoding) : Place × Traversal → Prop
  | (.outer cur, v) => ∃ followed, Way d followed v ∧ ∀ i ∈ cur, Ahead d followed v i
  | (.construct cur, v) => ∃ followed, Way d followed v ∧ ∀ i ∈ cur, Ahead d followed v i
  | (.close, v) => ∃ followed, Way d followed v

/-- What holds of a result: no node was visited twice. -/
def Visited (d : Decoding) (r : Bool × Traversal) : Prop :=
  r.2.calls.Nodup ∧ ∀ i ∈ r.2.calls, i < d.pool.length

/-- Turns that may still come without a call. -/
def placeWeight : Place → ℕ
  | .outer none => 0
  | .outer (some _) => 3
  | .construct _ => 2
  | .close => 1

/-- The measure of the loops. -/
def remaining (d : Decoding) (s : Place × Traversal) : ℕ :=
  8 * (d.pool.length - s.2.calls.length) + 4 * s.2.stack.length + placeWeight s.1

theorem Way.visited (h : Way d followed v) (hforest : Forest d) (found : Bool) : Visited d (found, v) := by
  refine ⟨h.calls_nodup, fun i hi => ?_⟩
  obtain ⟨σ, -, hlink⟩ := h.known i hi
  exact (hforest.below σ i hlink).2

/-- The next peer, or the way back. -/
theorem onWay_next (hforest : Forest d) (hway : Way d followed v) (hnext : .next i ∉ followed)
    (hpast : v.Past (.next i)) {t : Asn1Type} (ht : d.pool[i]? = some t) :
    OnWay d (if t.next.isSome then .outer t.next else .close, v) ∧
      placeWeight (if t.next.isSome then .outer t.next else .close) ≤ 3 := by
  obtain ⟨hway', hahead⟩ := hway.follow hforest hnext hpast
  cases hlink : t.next with
  | none => exact ⟨⟨_, hway⟩, by simp [placeWeight]⟩
  | some k =>
    refine ⟨⟨_, hway', fun j hj => hahead j ?_⟩, by simp [placeWeight]⟩
    obtain rfl := Option.some.inj hj
    simp [Decoding.link, ht, hlink]

/-- **A turn** keeps what holds of a traversal, without a fault, and lets the measure decrease. -/
theorem good_visit (detectFunc : Asn1Type → Bool) (hforest : Forest d) (s : Place × Traversal) (h : OnWay d s) :
    ∃ t, visit d.pool detectFunc s = some t ∧ t.Keeps (OnWay d) (remaining d) (Visited d) (remaining d s) := by
  obtain ⟨place, v⟩ := s
  cases place with
  | outer cur =>
    cases cur with
    | none =>
      obtain ⟨followed, hway, -⟩ := h
      exact ⟨_, rfl, hway.visited hforest _⟩
    | some cur => exact ⟨_, rfl, h, by simp [remaining, placeWeight]⟩
  | construct cur =>
    cases cur with
    | none =>
      obtain ⟨followed, hway, -⟩ := h
      exact ⟨_, rfl, ⟨followed, hway⟩, by simp [remaining, placeWeight]⟩
    | some cur =>
      obtain ⟨followed, hway, hahead⟩ := h
      have hcur : Ahead d followed v cur := hahead cur rfl
      obtain ⟨σ, -, hlink⟩ := hcur.linked
      have ht := List.getElem?_eq_getElem (hforest.below σ cur hlink).2
      simp only [visit, ht, Option.bind_some]
      split
      · -- a construct: its first child comes next
        split
        · rename_i hfull
          have henter := hcur.enter hfull
          have hroom := henter.length_calls_le hforest
          have hnew : .cnext cur ∉ followed := fun hin => hcur.unvisited (hway.past _ hin)
          obtain ⟨hway', hahead'⟩ := henter.follow hforest hnew List.mem_cons_self
          split
          · exact ⟨_, rfl, henter.visited hforest _⟩
          · refine ⟨_, rfl, ⟨_, hway', fun j hj => hahead' j ?_⟩, ?_⟩
            · simpa [Decoding.link, ht] using hj
            · simp only [Traversal.call, List.length_cons] at hroom
              simp only [remaining, placeWeight, Traversal.call, List.length_cons]
              omega
        · exact ⟨_, rfl, hway.visited hforest _⟩
      · -- a leaf: its peer comes next
        have hcall := hcur.call
        have hroom := hcall.length_calls_le hforest
        split
        · exact ⟨_, rfl, hcall.visited hforest _⟩
        · have hnew : .next cur ∉ followed := fun hin => hcur.unvisited (hway.past _ hin).1
          obtain ⟨hon, hweight⟩ := onWay_next hforest hcall hnew
            ⟨List.mem_cons_self, fun hin => hcur.unvisited (hway.stack_calls cur hin)⟩ ht
          refine ⟨_, rfl, hon, ?_⟩
          simp only [Traversal.call, List.length_cons] at hroom
          simp only [remaining, Traversal.call, List.length_cons] at hweight ⊢
          simp only [placeWeight] at hweight ⊢
          omega
  | close =>
    obtain ⟨followed, hway⟩ := h
    cases hstack : v.stack with
    | nil =>
      simp only [visit, hstack]
      exact ⟨_, rfl, ⟨followed, hway, by simp⟩, by simp [remaining, placeWeight]⟩
    | cons i stack =>
      have hi : i ∈ v.stack := by simp [hstack]
      obtain ⟨σ, -, hlink⟩ := hway.known i (hway.stack_calls i hi)
      have ht := List.getElem?_eq_getElem (hforest.below σ i hlink).2
      have hnodup := hway.stack_nodup
      rw [hstack] at hnodup
      have hpopped : Way d followed { v with stack := stack } := by
        refine ⟨hway.known, fun τ hτ => ?_, hway.calls_nodup, (List.nodup_cons.1 hnodup).2,
          fun j hj => hway.stack_calls j (by simp [hstack, hj]), ?_⟩
        · have := hway.past τ hτ
          cases τ with
          | root => trivial
          | cnext j => exact this
          | next j => exact ⟨this.1, fun hj => this.2 (by simp [hstack, hj])⟩
        · have := hway.stack_le
          rw [hstack, List.length_cons] at this
          simp only
          omega
      have hnew : .next i ∉ followed := fun hin => (hway.past _ hin).2 hi
      obtain ⟨hon, hweight⟩ := onWay_next hforest hpopped hnew
        ⟨hway.stack_calls i hi, (List.nodup_cons.1 hnodup).1⟩ ht
      simp only [visit, hstack, ht, Option.bind_some]
      refine ⟨_, rfl, hon, ?_⟩
      simp only [remaining, hstack, List.length_cons] at hweight ⊢
      simp only [placeWeight] at hweight ⊢
      omega

/-- Turns that are enough for every forest of a size. -/
def enoughVisits (nodes : ℕ) : ℕ := 8 * nodes + 4

/-- A forest is traversed in finitely many turns, with at most one call for each node. -/
theorem asn1Traverse_once (hforest : Forest d) (detectFunc : Asn1Type → Bool) :
    ∃ r, Visited d r ∧
      ∀ fuel, enoughVisits d.pool.length ≤ fuel → asn1Traverse d.pool detectFunc d.root fuel = .returns r := by
  unfold asn1Traverse
  cases hroot : d.root with
  | none => exact ⟨_, ⟨by simp, by simp⟩, fun fuel _ => rfl⟩
  | some i =>
    have hway : Way d {.root} ⟨[], []⟩ :=
      ⟨by simp, fun σ hσ => by obtain rfl := hσ; trivial, by simp, by simp, by simp, by simp⟩
    have hon : OnWay d (.outer (some i), ⟨[], []⟩) := by
      refine ⟨{.root}, hway, fun j hj => ⟨hway, ⟨.root, rfl, ?_⟩, by simp⟩⟩
      obtain rfl := Option.some.inj hj
      exact hroot
    have henough : remaining d (.outer (some i), ⟨[], []⟩) < enoughVisits d.pool.length := by
      simp [remaining, placeWeight, enoughVisits]
    obtain ⟨r, hr, hvisited⟩ := run_returns (good_visit detectFunc hforest) hon henough
    exact ⟨r, hvisited, fun fuel hfuel => run_of_le hr hfuel⟩

/-- **Safety**: `asn1_decode` comes to a result, without a fault; the links form a forest of nodes that are located
in the buffer, but for a last one that was refused, and `asn1_traverse` calls the detection function at most once for
each of them. -/
theorem asn1_safe (buf : List UInt8) (hbuf : buf.length < 2 ^ 32) (numNodes : ℕ) :
    ∃ ret d, (∀ fuel, enoughTurns buf.length ≤ fuel → asn1Decode buf numNodes fuel = .returns (ret, d)) ∧
      Final buf (ret, d) ∧ ∀ detectFunc, ∃ r, Visited d r ∧
        ∀ fuel, enoughVisits d.pool.length ≤ fuel → asn1Traverse d.pool detectFunc d.root fuel = .returns r := by
  obtain ⟨⟨ret, d⟩, hfinal, hreturns⟩ := asn1Decode_safe hbuf numNodes
  exact ⟨ret, d, hreturns, hfinal, fun detectFunc => asn1Traverse_once hfinal.forest detectFunc⟩

/-- A sequence of an integer and a string without its contents. -/
def shortSequence : List UInt8 := [0x30, 0x06, 0x02, 0x01, 0x05, 0x04]

/-- The string is refused. -/
theorem asn1_safe_shortSequence :
    ∃ ret d, (∀ fuel, enoughTurns shortSequence.length ≤ fuel →
        asn1Decode shortSequence 256 fuel = .returns (ret, d)) ∧
      Final shortSequence (ret, d) ∧ ∀ detectFunc, ∃ r, Visited d r ∧
        ∀ fuel, enoughVisits d.pool.length ≤ fuel → asn1Traverse d.pool detectFunc d.root fuel = .returns r :=
  asn1_safe shortSequence (by decide) 256

/-- A node that was refused is linked, and its contents are nowhere. -/
theorem refused_node_linked :
    ¬∀ (buf : List UInt8) (numNodes : ℕ) (ret : Ret) (d : Decoding), 1 ≤ buf.length →
      asn1Decode buf numNodes (enoughTurns buf.length) = .returns (ret, d) →
        ∀ σ i t, d.link σ = some i → d.pool[i]? = some t → Located buf.length buf.length t := by
  intro h
  obtain ⟨start, -, hdata, -⟩ := h [0x02] 256 .oob
    ⟨[{ newNode with ident := ⟨0, 0, 0, 2⟩ }], some 0, 0, 1, [], none⟩ le_rfl rfl .root 0 _ rfl rfl
  cases hdata

end Snort.Asn1
