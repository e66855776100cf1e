import Snort.RateFilter.Model

/-!
# A node that is made for an address

* `Inv`: what all events keep: nodes are made while there is room, and none of them is new any more;
* `nextEvent`: the decision on the next event for an address, and the state of its node;
* **`nextEvent_eq_start_iff`**: with no node for the address, the next event is treated as in an empty table if
  and only if the node that is made for it is not a recovered one.
-/

namespace Snort.RateFilter

open CInt Sfxhash

variable {A : Type*}

/-! ### One node -/

section Node

variable (cfgNode : ConfigNode A) (dynNode : TrackingNode) (curTime : ℤ)

theorem filterState_firstTime : (firstTime dynNode curTime).filterState ≠ .new := by
  unfold firstTime
  split
  · exact FilterState.noConfusion
  · assumption

theorem filterState_checkSamplingPeriod :
    (checkSamplingPeriod cfgNode dynNode curTime).filterState = dynNode.filterState := by
  unfold checkSamplingPeriod
  split
  · split
    · rfl
    · rfl
  · rfl

theorem filterState_countEvent (op : CountOperation) :
    (countEvent cfgNode dynNode op).filterState = dynNode.filterState := by
  cases op with
  | nop => rfl
  | reset => rfl
  | increment =>
    simp only [countEvent]
    split
    · rfl
    · rfl
  | decrement =>
    simp only [countEvent]
    split
    · rfl
    · rfl

theorem filterState_checkRate (h : dynNode.filterState ≠ .new) :
    (checkRate cfgNode dynNode curTime).2.filterState ≠ .new := by
  unfold checkRate
  split
  · exact h
  · exact FilterState.noConfusion

theorem filterState_checkThreshold (h : dynNode.filterState ≠ .new) :
    (checkThreshold cfgNode dynNode curTime).2.filterState ≠ .new := by
  unfold checkThreshold
  split
  · split
    · split
      · exact h
      · exact filterState_checkRate cfgNode _ curTime FilterState.noConfusion
    · exact h
  · exact filterState_checkRate cfgNode dynNode curTime h

theorem filterState_compensate : (compensate cfgNode dynNode).filterState = dynNode.filterState := by
  unfold compensate
  split
  · rfl
  · rfl

/-- No node is new behind an event. -/
theorem filterState_testNode (op : CountOperation) :
    (testNode cfgNode dynNode curTime op).2.filterState ≠ .new := by
  unfold testNode
  rw [filterState_compensate]
  apply filterState_checkThreshold
  rw [filterState_countEvent, filterState_checkSamplingPeriod]
  exact filterState_firstTime dynNode curTime

theorem tstart_checkThreshold : (checkThreshold cfgNode dynNode curTime).2.tstart = dynNode.tstart := by
  have hrate : ∀ d : TrackingNode, (checkRate cfgNode d curTime).2.tstart = d.tstart := by
    intro d
    unfold checkRate
    split
    · rfl
    · rfl
  unfold checkThreshold
  split
  · split
    · split
      · rfl
      · exact hrate _
    · rfl
  · exact hrate _

/-- An event in the second in which the period started, or a multiple of `2 ^ 32` seconds later, starts no
new period. -/
theorem tstart_testNode_nop (h : u32 (curTime - (firstTime dynNode curTime).tstart) = 0) :
    (testNode cfgNode dynNode curTime .nop).2.tstart = (firstTime dynNode curTime).tstart := by
  have hcompensate : ∀ d : TrackingNode, (compensate cfgNode d).tstart = d.tstart := by
    intro d
    unfold compensate
    split
    · rfl
    · rfl
  unfold testNode
  rw [hcompensate, tstart_checkThreshold]
  show (checkSamplingPeriod cfgNode (firstTime dynNode curTime) curTime).tstart = _
  unfold checkSamplingPeriod
  rw [h]
  split
  · rw [if_neg (by omega)]
  · rfl

end Node

/-! ### The table -/

/-- What events keep. -/
structure Inv (capacity : ℕ) (rfHash : RfHash A) : Prop where
  length : rfHash.nodes.length + rfHash.room = capacity
  anr : rfHash.anrFlag = true
  known : ∀ n ∈ rfHash.nodes, n.2.filterState ≠ .new

variable [DecidableEq A] {capacity : ℕ} {rfHash : RfHash A}

theorem Inv.sfrfTestObject (h : Inv capacity rfHash) (policyId : ℕ) (cfgNode : ConfigNode A) (ip : A)
    (curTime : ℤ) (op : CountOperation) :
    Inv capacity (sfrfTestObject rfHash policyId cfgNode ip curTime op).2 := by
  unfold RateFilter.sfrfTestObject
  generalize (⟨policyId, cfgNode.tid, ip⟩ : TrackingNodeKey A) = key
  have hlength := h.length
  cases hfind : rfHash.find key with
  | some d =>
    rw [sfxhashGetNode_found _ hfind]
    have hlen := @length_moveToFront _ _ _ rfHash key d (by rw [hfind]; rfl)
    refine ⟨?_, h.anr, ?_⟩
    · rw [← h.length, ← hlen]
      rfl
    · intro n hn
      rcases List.mem_cons.1 hn with rfl | hn
      · exact filterState_testNode _ _ _ _
      · exact h.known n (List.mem_of_mem_eraseP hn)
  | none =>
    by_cases hroom : 0 < rfHash.room
    · rw [sfxhashGetNode_new _ hfind hroom]
      refine ⟨?_, h.anr, ?_⟩
      · show rfHash.nodes.length + 1 + (rfHash.room - 1) = capacity
        omega
      · intro n hn
        rcases List.mem_cons.1 hn with rfl | hn
        · exact filterState_testNode _ _ _ _
        · exact h.known n hn
    · have hzero : rfHash.room = 0 := Nat.eq_zero_of_not_pos hroom
      cases hlast : rfHash.nodes.getLast? with
      | none =>
        have hnone : sfxhashGetNode .cleared rfHash key = none := by
          unfold sfxhashGetNode sfxhashNewnode
          simp only [hfind, if_neg hroom, h.anr, if_true, hlast, Option.map_none]
        rw [hnone]
        exact h
      | some n =>
        rw [sfxhashGetNode_recovered _ hfind hzero h.anr hlast]
        have hne : rfHash.nodes ≠ [] := by
          intro hnil
          rw [hnil] at hlast
          cases hlast
        have hpos := List.length_pos_iff.2 hne
        refine ⟨?_, h.anr, ?_⟩
        · show rfHash.nodes.dropLast.length + 1 + rfHash.room = capacity
          rw [List.length_dropLast]
          omega
        · intro m hm
          rcases List.mem_cons.1 hm with rfl | hm
          · exact filterState_testNode _ _ _ _
          · exact h.known m (List.mem_of_mem_dropLast hm)

theorem Inv.testFilters (h : Inv capacity rfHash) (cleared : A) (c : Call A) :
    Inv capacity (testFilters cleared rfHash c).2 := by
  have hrun : ∀ (nodes : List (ConfigNode A)) (s : ℤ × ℤ × RfHash A), Inv capacity s.2.2 →
      Inv capacity (nodes.foldl (testConfigNode cleared c) s).2.2 := by
    intro nodes
    induction nodes with
    | nil => exact fun s hs => hs
    | cons cfgNode nodes ih =>
      intro s hs
      apply ih
      unfold testConfigNode
      cases trackedIp cleared c cfgNode with
      | none => exact hs
      | some ip => exact hs.sfrfTestObject ..
  unfold RateFilter.testFilters
  cases c.config.configNodeList c.gid c.sid c.policyId with
  | none => exact h
  | some nodes => exact hrun nodes _ h

theorem Inv.sfrfTestThreshold (h : Inv capacity rfHash) (cleared : A) (c : Call A) :
    Inv capacity (sfrfTestThreshold cleared rfHash c).2 := by
  unfold RateFilter.sfrfTestThreshold
  split
  · exact h
  · apply Inv.testFilters
    unfold updateDependentThresholds
    split
    · exact h.testFilters ..
    · exact h

/-- A new table with memory for `capacity` nodes. -/
def startHash (A : Type*) (capacity : ℕ) : RfHash A := ⟨[], capacity, true⟩

/-- The table behind a history of calls. -/
def runCalls (cleared : A) (capacity : ℕ) (history : List (Call A)) : RfHash A :=
  history.foldl (fun t c => (sfrfTestThreshold cleared t c).2) (startHash A capacity)

theorem inv_runCalls (cleared : A) (capacity : ℕ) (history : List (Call A)) :
    Inv capacity (runCalls cleared capacity history) := by
  induction history using List.reverseRecOn with
  | nil => exact ⟨Nat.zero_add _, rfl, List.forall_mem_nil _⟩
  | append_singleton history c ih =>
    unfold runCalls
    rw [List.foldl_append]
    exact ih.sfrfTestThreshold cleared c

/-! ### The next event -/

/-- The count, the filter state, and the start and revert times. -/
def TrackingNode.state (d : TrackingNode) : ℕ × FilterState × ℤ × ℤ :=
  (d.count, d.filterState, d.tstart, d.revertTime)

/-- The decision on the next event for an address, and the state of its node then. -/
def nextEvent (rfHash : RfHash A) (policyId : ℕ) (cfgNode : ConfigNode A) (ip : A) (curTime : ℤ)
    (op : CountOperation) : ℤ × Option (ℕ × FilterState × ℤ × ℤ) :=
  let r := sfrfTestObject rfHash policyId cfgNode ip curTime op
  (r.1, (r.2.find ⟨policyId, cfgNode.tid, ip⟩).map TrackingNode.state)

theorem nextEvent_of_getNode {policyId : ℕ} {cfgNode : ConfigNode A} {ip : A} {d : TrackingNode}
    {nodes : List (TrackingNodeKey A × TrackingNode)} {room : ℕ} {anr : Bool}
    (h : sfxhashGetNode .cleared rfHash ⟨policyId, cfgNode.tid, ip⟩ =
      some (d, ⟨(⟨policyId, cfgNode.tid, ip⟩, d) :: nodes, room, anr⟩)) (curTime : ℤ) (op : CountOperation) :
    nextEvent rfHash policyId cfgNode ip curTime op =
      ((testNode cfgNode d curTime op).1, some (testNode cfgNode d curTime op).2.state) := by
  unfold nextEvent sfrfTestObject
  rw [h]
  simp only [SfxHash.setFront, find_cons, if_true, Option.map_some]

/-- **The next event for an address without a node** is treated as in an empty table, whenever it comes and
whatever it does, if and only if there is memory for a new node (or never was). -/
theorem nextEvent_eq_start_iff (cleared : A) (capacity : ℕ) (history : List (Call A)) (policyId : ℕ)
    (cfgNode : ConfigNode A) (ip : A)
    (hkey : (runCalls cleared capacity history).find ⟨policyId, cfgNode.tid, ip⟩ = none) :
    (∀ curTime op, nextEvent (runCalls cleared capacity history) policyId cfgNode ip curTime op =
        nextEvent (startHash A capacity) policyId cfgNode ip curTime op) ↔
      0 < (runCalls cleared capacity history).room ∨ capacity = 0 := by
  have hinv := inv_runCalls cleared capacity history
  generalize runCalls cleared capacity history = t at *
  obtain ⟨nodes, room, anr⟩ := t
  have hlength := hinv.length
  have hanr : anr = true := hinv.anr
  simp only at hlength
  subst hanr
  by_cases hcap : capacity = 0
  · have hnil : nodes = [] := List.eq_nil_of_length_eq_zero (by omega)
    have hroom : room = 0 := by omega
    subst hnil hroom hcap
    exact ⟨fun _ => .inr rfl, fun _ _ _ => rfl⟩
  · have hstart := sfxhashGetNode_new TrackingNode.cleared
      (show (startHash A capacity).find ⟨policyId, cfgNode.tid, ip⟩ = none from rfl)
      (Nat.pos_of_ne_zero hcap)
    by_cases hroom : 0 < room
    · refine ⟨fun _ => .inl hroom, fun _ curTime op => ?_⟩
      rw [nextEvent_of_getNode (sfxhashGetNode_new _ hkey hroom), nextEvent_of_getNode hstart]
    · -- the oldest node is recovered, and its period did not start with this event
      refine ⟨fun hall => ?_, fun h => absurd (h.resolve_right hcap) hroom⟩
      have hne : nodes ≠ [] := List.ne_nil_of_length_pos (by omega)
      have hlast := List.getLast?_eq_some_getLast hne
      have hknown := hinv.known _ (List.getLast_mem hne)
      generalize nodes.getLast hne = n at hlast hknown
      have heq := hall (n.2.tstart + 2 ^ 32) .nop
      rw [nextEvent_of_getNode (sfxhashGetNode_recovered _ hkey (Nat.eq_zero_of_not_pos hroom) rfl hlast),
        nextEvent_of_getNode hstart] at heq
      have hstate := Option.some.inj (congrArg Prod.snd heq)
      have htstart : (testNode cfgNode n.2 (n.2.tstart + 2 ^ 32) .nop).2.tstart =
          (testNode cfgNode .cleared (n.2.tstart + 2 ^ 32) .nop).2.tstart :=
        congrArg (fun s : ℕ × FilterState × ℤ × ℤ => s.2.2.1) hstate
      have hold : firstTime n.2 (n.2.tstart + 2 ^ 32) = n.2 := if_neg hknown
      have hnew : (firstTime .cleared (n.2.tstart + 2 ^ 32)).tstart = n.2.tstart + 2 ^ 32 := rfl
      rw [tstart_testNode_nop _ _ _ (by rw [hold]; simp [u32]), hold,
        tstart_testNode_nop _ _ _ (by rw [hnew]; simp [u32]), hnew] at htstart
      omega

/-! ### A node that is recovered -/

/-- One event in 60 seconds is admitted, for each source address. -/
def oneInSixty : ConfigNode ℕ := ⟨1, .bySrc, 1, 60, .drop, 60, none⟩

/-- Two events of the address 1, the second of which is over the rate. -/
def twoEvents : List (Call ℕ) :=
  List.replicate 2 ⟨⟨fun _ _ _ => some [oneInSixty]⟩, 0, 1, 1, 1, 0, 0, .increment⟩

theorem nextEvent_twoEvents_room :
    nextEvent (runCalls 0 2 twoEvents) 0 oneInSixty 2 10 .increment =
      nextEvent (startHash ℕ 2) 0 oneInSixty 2 10 .increment :=
  (nextEvent_eq_start_iff 0 2 twoEvents 0 oneInSixty 2 (by decide)).2 (.inl (by decide)) 10 .increment

/-- With memory for one node, the first event of the address 2 is answered with the new action, which was
started for the address 1. -/
theorem recovered_node_blocks :
    (runCalls 0 1 twoEvents).find ⟨0, 1, 2⟩ = none ∧
      nextEvent (runCalls 0 1 twoEvents) 0 oneInSixty 2 10 .increment = (3, some (3, .on, 0, 0)) ∧
      nextEvent (startHash ℕ 1) 0 oneInSixty 2 10 .increment = (-1, some (1, .off, 10, 0)) := by
  decide

end Snort.RateFilter
