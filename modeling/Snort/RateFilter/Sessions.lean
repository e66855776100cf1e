import Snort.RateFilter.Model

/-!
# Counting open sessions

A filter without a sampling period counts sessions, and drops those over its limit.

* `testNode_increment`, `testNode_decrement`: what the events do to the count;
* `World`, `World.step`: the table and the admitted sessions that are open, session by session;
* `Timely`: no session is added while the new action is still on and there is room for one more;
* **`countsAlong_iff_timely`**: the count is that of the open sessions if and only if additions are timely.
-/

namespace Snort.RateFilter

open CInt Sfxhash

variable {A : Type*} {cfgNode : ConfigNode A} {dynNode : TrackingNode} {curTime : ℤ}

/-! ### One event -/

/-- The new action is on, and stays on. -/
def Active (cfgNode : ConfigNode A) (dynNode : TrackingNode) (curTime : ℤ) : Prop :=
  dynNode.filterState = .on ∧ expired cfgNode dynNode curTime = false

instance : Decidable (Active cfgNode dynNode curTime) := inferInstanceAs (Decidable (_ ∧ _))

theorem RuleType.toInt_nonneg (a : RuleType) : 0 ≤ a.toInt := by
  cases a <;> decide

theorem checkRate_neg_iff (d : TrackingNode) :
    (checkRate cfgNode d curTime).1 < 0 ↔ d.count ≤ cfgNode.count ∧ d.overRate = false := by
  have hpos := cfgNode.newAction.toInt_nonneg
  have hmax : RuleType.max.toInt = 9 := rfl
  unfold checkRate
  split
  · rename_i h
    exact ⟨fun _ => h, fun _ => by norm_num⟩
  · rename_i h
    constructor
    · intro hneg
      simp only [hmax] at hneg
      omega
    · exact fun hc => absurd hc h

/-- The decision on a count. -/
theorem checkThreshold_neg_iff (d : TrackingNode) (hover : d.overRate = false) :
    (checkThreshold cfgNode d curTime).1 < 0 ↔ d.count ≤ cfgNode.count ∧ ¬Active cfgNode d curTime := by
  have hpos := cfgNode.newAction.toInt_nonneg
  unfold checkThreshold Active
  by_cases hon : d.filterState = .on
  · rw [if_pos hon]
    cases hexp : expired cfgNode d curTime with
    | true =>
      rw [if_pos rfl]
      by_cases hlt : cfgNode.count < d.count
      · rw [if_pos (.inl hlt)]
        constructor
        · exact fun hneg => absurd hneg (not_lt.2 hpos)
        · exact fun h => absurd h.1 (not_le.2 hlt)
      · rw [if_neg (by simp [hlt, hover]), checkRate_neg_iff]
        simp [hover]
    | false =>
      rw [if_neg (by decide)]
      constructor
      · exact fun hneg => absurd hneg (not_lt.2 hpos)
      · exact fun h => absurd ⟨hon, rfl⟩ h.2
  · rw [if_neg hon, checkRate_neg_iff]
    simp [hover, hon]

theorem count_checkThreshold (d : TrackingNode) : (checkThreshold cfgNode d curTime).2.count = d.count := by
  have hrate : ∀ d : TrackingNode, (checkRate cfgNode d curTime).2.count = d.count := by
    intro d
    unfold checkRate
    split
    · rfl
    · rfl
  unfold checkThreshold
  split
  · split
    · split
      · rfl
      · exact hrate _
    · rfl
  · exact hrate _

section Total

variable (hseconds : cfgNode.seconds = 0) (hdrop : cfgNode.newAction = .drop)
variable (hle : dynNode.count ≤ cfgNode.count)

include hseconds hle in
/-- The node behind the check of the sampling period. -/
theorem sampled_eq : ∃ d, checkSamplingPeriod cfgNode (firstTime dynNode curTime) curTime = d ∧
    d.count = dynNode.count ∧ d.overRate = false ∧
      (Active cfgNode d curTime ↔ Active cfgNode dynNode curTime) := by
  have hcount : (firstTime dynNode curTime).count = dynNode.count := by
    unfold firstTime
    split
    · rfl
    · rfl
  refine ⟨_, rfl, ?_⟩
  unfold checkSamplingPeriod
  rw [if_neg (not_not.2 hseconds)]
  refine ⟨hcount, ?_, ?_⟩
  · simp only [hcount, decide_eq_false_iff_not]
    omega
  · unfold Active firstTime
    by_cases hnew : dynNode.filterState = .new
    · rw [if_pos hnew, hnew]
      simp
    · rw [if_neg hnew]
      rfl

include hseconds hdrop hle in
/-- An event with the count that is made of it. -/
theorem testNode_total (op : CountOperation) {count : ℕ}
    (hcount : ∀ d : TrackingNode, d.count = dynNode.count →
      countEvent cfgNode d op = { d with count := count }) :
    ((testNode cfgNode dynNode curTime op).1 < 0 ↔
        count ≤ cfgNode.count ∧ ¬Active cfgNode dynNode curTime) ∧
      (testNode cfgNode dynNode curTime op).2.count = if cfgNode.count < count then count - 1 else count := by
  obtain ⟨d, hd, hdcount, hover, hactive⟩ := @sampled_eq A cfgNode dynNode curTime hseconds hle
  have hnode : testNode cfgNode dynNode curTime op =
      ((checkThreshold cfgNode { d with count := count } curTime).1,
        compensate cfgNode (checkThreshold cfgNode { d with count := count } curTime).2) := by
    unfold testNode
    simp only [hd, hcount d hdcount]
  rw [hnode]
  constructor
  · show (checkThreshold cfgNode { d with count := count } curTime).1 < 0 ↔ _
    rw [checkThreshold_neg_iff { d with count := count } hover]
    show count ≤ cfgNode.count ∧ ¬Active cfgNode d curTime ↔ _
    rw [hactive]
  · have hend := @count_checkThreshold A cfgNode curTime { d with count := count }
    simp only at hend
    unfold compensate
    simp only [hend, hseconds, hdrop, true_and, and_true]
    split
    · rfl
    · exact hend

/-- The count with one more session, unless the number overflows. -/
def incremented (dynNode : TrackingNode) : ℕ :=
  if u32 (dynNode.count + 1) ≠ 0 then dynNode.count + 1 else dynNode.count

include hseconds hdrop hle in
/-- A session that is added. -/
theorem testNode_increment :
    ((testNode cfgNode dynNode curTime .increment).1 < 0 ↔
        incremented dynNode ≤ cfgNode.count ∧ ¬Active cfgNode dynNode curTime) ∧
      (testNode cfgNode dynNode curTime .increment).2.count =
        if cfgNode.count < incremented dynNode then incremented dynNode - 1 else incremented dynNode := by
  apply testNode_total hseconds hdrop hle
  intro d hd
  unfold countEvent incremented
  simp only [hd]
  split
  · rfl
  · rw [← hd]

include hseconds hdrop hle in
/-- A session that is deleted. -/
theorem testNode_decrement :
    (testNode cfgNode dynNode curTime .decrement).2.count = dynNode.count - 1 := by
  have h := (@testNode_total A cfgNode dynNode curTime hseconds hdrop hle .decrement (dynNode.count - 1) (by
    intro d hd
    unfold countEvent
    simp only [hseconds, true_and]
    split
    · rw [hd]
    · rename_i hzero
      have hz : d.count = 0 := not_not.1 hzero
      rw [← hd, hz]
      cases d
      simp only at hz
      rw [hz])).2
  rw [h, if_neg]
  omega

end Total

/-! ### The table -/

variable [DecidableEq A] {rfHash : RfHash A} {policyId : ℕ} {ip : A}

/-- The node that an event for a key finds, or that is made for it. -/
def nodeOf (rfHash : RfHash A) (key : TrackingNodeKey A) : TrackingNode :=
  (rfHash.find key).getD .cleared

/-- There is a node for the key, or room for one. -/
def HasNode (rfHash : RfHash A) (key : TrackingNodeKey A) : Prop :=
  rfHash.find key = none → 0 < rfHash.room

theorem sfrfTestObject_eq (h : HasNode rfHash ⟨policyId, cfgNode.tid, ip⟩) (op : CountOperation) :
    (sfrfTestObject rfHash policyId cfgNode ip curTime op).1 =
        (testNode cfgNode (nodeOf rfHash ⟨policyId, cfgNode.tid, ip⟩) curTime op).1 ∧
      (sfrfTestObject rfHash policyId cfgNode ip curTime op).2.find ⟨policyId, cfgNode.tid, ip⟩ =
        some (testNode cfgNode (nodeOf rfHash ⟨policyId, cfgNode.tid, ip⟩) curTime op).2 := by
  unfold sfrfTestObject nodeOf HasNode at *
  generalize (⟨policyId, cfgNode.tid, ip⟩ : TrackingNodeKey A) = key at *
  cases hfind : rfHash.find key with
  | some d =>
    rw [sfxhashGetNode_found _ hfind]
    refine ⟨rfl, ?_⟩
    rw [find_setFront_moveToFront, if_pos rfl]
    rfl
  | none =>
    rw [sfxhashGetNode_new _ hfind (h hfind)]
    refine ⟨rfl, ?_⟩
    simp only [SfxHash.setFront, find_cons, if_true]
    rfl

/-! ### Sessions -/

/-- A configuration with one filter, on sessions that are added. -/
def sessionFilter (cfgNode : ConfigNode A) : RateFilterConfig A :=
  ⟨fun gid sid _ =>
    if gid = generatorInternal ∧ sid = internalEventSessionAdd then some [cfgNode] else none⟩

/-- A session is added or deleted. -/
inductive SessionEvent (A S : Type*)
  | add (session : S) (sip dip : A) (curTime : ℤ)
  | del (session : S) (sip dip : A) (curTime : ℤ)

/-- The table, and the sessions that were admitted and are open. -/
structure World (A S : Type*) where
  rfHash : RfHash A
  opened : List S

variable {S : Type*} [DecidableEq S] (cleared : A) (cfgNode policyId)

/-- The call for an event.  Events are counted, also that of a session that is deleted. -/
def SessionEvent.call : SessionEvent A S → Call A
  | .add _ sip dip t =>
    ⟨sessionFilter cfgNode, policyId, generatorInternal, internalEventSessionAdd, sip, dip, t, .increment⟩
  | .del _ sip dip t =>
    ⟨sessionFilter cfgNode, policyId, generatorInternal, internalEventSessionDel, sip, dip, t, .increment⟩

/-- A session whose addition is not answered with the new action is admitted. -/
def World.step (w : World A S) (e : SessionEvent A S) : World A S :=
  let r := sfrfTestThreshold cleared w.rfHash (e.call cfgNode policyId)
  ⟨r.2, match e with
    | .add session _ _ _ => if r.1 < 0 then session :: w.opened else w.opened
    | .del session _ _ _ => w.opened.erase session⟩

/-- New sessions are added, and open ones deleted; the tracked address is `ip`. -/
def Valid (ip : A) (w : World A S) (e : SessionEvent A S) : Prop :=
  trackedIp cleared (e.call cfgNode policyId) cfgNode = some ip ∧
    match e with
    | .add session _ _ _ => session ∉ w.opened
    | .del session _ _ _ => session ∈ w.opened

/-- The count of the node is the number of open sessions. -/
def CountsOpen (ip : A) (w : World A S) : Prop :=
  (nodeOf w.rfHash ⟨policyId, cfgNode.tid, ip⟩).count = w.opened.length

/-- A session is not added while the new action stays on although there is room for one more; nor is it
admitted when the count cannot grow. -/
def Timely (ip : A) (w : World A S) : SessionEvent A S → Prop
  | .add _ _ _ t =>
    let dynNode := nodeOf w.rfHash ⟨policyId, cfgNode.tid, ip⟩
    (Active cfgNode dynNode t → cfgNode.count < dynNode.count + 1 ∨ u32 (dynNode.count + 1) = 0) ∧
      (¬Active cfgNode dynNode t → u32 (dynNode.count + 1) ≠ 0)
  | .del _ _ _ _ => True

/-- The property along a run: it holds behind every event. -/
def CountsAlong (ip : A) : World A S → List (SessionEvent A S) → Prop
  | _, [] => True
  | w, e :: es =>
    CountsOpen cfgNode policyId ip (w.step cfgNode policyId cleared e) ∧
      CountsAlong ip (w.step cfgNode policyId cleared e) es

/-- All events of a run are valid. -/
def ValidAlong (ip : A) : World A S → List (SessionEvent A S) → Prop
  | _, [] => True
  | w, e :: es =>
    Valid cfgNode policyId cleared ip w e ∧ ValidAlong ip (w.step cfgNode policyId cleared e) es

/-- All additions of a run are timely. -/
def TimelyAlong (ip : A) : World A S → List (SessionEvent A S) → Prop
  | _, [] => True
  | w, e :: es =>
    Timely cfgNode policyId ip w e ∧ TimelyAlong ip (w.step cfgNode policyId cleared e) es

variable {cleared cfgNode policyId} {w : World A S}

/-- The one filter of the configuration. -/
theorem testFilters_sessionFilter {c : Call A} (hconfig : c.config = sessionFilter cfgNode)
    (hgid : c.gid = generatorInternal) (hsid : c.sid = internalEventSessionAdd)
    (hip : trackedIp cleared c cfgNode = some ip) :
    ((testFilters cleared rfHash c).1 < 0 ↔
        (sfrfTestObject rfHash c.policyId cfgNode ip c.curTime c.op).1 < 0) ∧
      (testFilters cleared rfHash c).2 = (sfrfTestObject rfHash c.policyId cfgNode ip c.curTime c.op).2 := by
  unfold testFilters
  rw [hconfig, hgid, hsid]
  simp only [sessionFilter, and_self, if_true, List.foldl_cons, List.foldl_nil, testConfigNode, hip,
    and_true]
  split
  · exact Iff.rfl
  · rename_i hneg
    exact ⟨fun _ => not_le.1 hneg, fun _ => by norm_num⟩

/-- What an addition does. -/
theorem step_add (h : HasNode w.rfHash ⟨policyId, cfgNode.tid, ip⟩) {session : S} {sip dip : A} {t : ℤ}
    (hvalid : Valid cfgNode policyId cleared ip w (.add session sip dip t)) :
    (w.step cfgNode policyId cleared (.add session sip dip t)).rfHash.find ⟨policyId, cfgNode.tid, ip⟩ =
        some (testNode cfgNode (nodeOf w.rfHash ⟨policyId, cfgNode.tid, ip⟩) t .increment).2 ∧
      (w.step cfgNode policyId cleared (.add session sip dip t)).opened.length =
        if (testNode cfgNode (nodeOf w.rfHash ⟨policyId, cfgNode.tid, ip⟩) t .increment).1 < 0 then
          w.opened.length + 1
        else w.opened.length := by
  obtain ⟨hneg, hhash⟩ := @testFilters_sessionFilter A cfgNode _ w.rfHash ip cleared
    ((SessionEvent.add session sip dip t).call cfgNode policyId) rfl rfl rfl hvalid.1
  obtain ⟨hdecision, hfind⟩ := @sfrfTestObject_eq A cfgNode t _ w.rfHash policyId ip h .increment
  have hcall : sfrfTestThreshold cleared w.rfHash
      ((SessionEvent.add session sip dip t).call cfgNode policyId) =
      testFilters cleared w.rfHash ((SessionEvent.add session sip dip t).call cfgNode policyId) := rfl
  constructor
  · show (sfrfTestThreshold cleared w.rfHash
      ((SessionEvent.add session sip dip t).call cfgNode policyId)).2.find _ = _
    rw [hcall, hhash]
    exact hfind
  · unfold World.step
    rw [hcall]
    simp only [hneg]
    rw [← hdecision]
    show (if (sfrfTestObject w.rfHash policyId cfgNode ip t .increment).1 < 0 then session :: w.opened
      else w.opened).length = _
    split
    · rfl
    · rfl

/-- What a deletion does, in the nested call. -/
theorem step_del (h : HasNode w.rfHash ⟨policyId, cfgNode.tid, ip⟩) {session : S} {sip dip : A} {t : ℤ}
    (hvalid : Valid cfgNode policyId cleared ip w (.del session sip dip t)) :
    (w.step cfgNode policyId cleared (.del session sip dip t)).rfHash.find ⟨policyId, cfgNode.tid, ip⟩ =
        some (testNode cfgNode (nodeOf w.rfHash ⟨policyId, cfgNode.tid, ip⟩) t .decrement).2 ∧
      (w.step cfgNode policyId cleared (.del session sip dip t)).opened.length = w.opened.length - 1 := by
  obtain ⟨-, hhash⟩ := @testFilters_sessionFilter A cfgNode _ w.rfHash ip cleared
    { (SessionEvent.del session sip dip t).call cfgNode policyId with
      sid := internalEventSessionAdd, op := .decrement } rfl rfl rfl hvalid.1
  have hfind := (@sfrfTestObject_eq A cfgNode t _ w.rfHash policyId ip h .decrement).2
  have hcall : (sfrfTestThreshold cleared w.rfHash
      ((SessionEvent.del session sip dip t).call cfgNode policyId)).2 =
      (testFilters cleared w.rfHash { (SessionEvent.del session sip dip t).call cfgNode policyId with
        sid := internalEventSessionAdd, op := .decrement }).2 := rfl
  constructor
  · show (sfrfTestThreshold cleared w.rfHash
      ((SessionEvent.del session sip dip t).call cfgNode policyId)).2.find _ = _
    rw [hcall, hhash]
    exact hfind
  · exact List.length_erase_of_mem hvalid.2

/-- What holds along every run: the count does not exceed the limit. -/
structure WorldInv (cfgNode : ConfigNode A) (policyId : ℕ) (ip : A) (w : World A S) : Prop where
  hasNode : HasNode w.rfHash ⟨policyId, cfgNode.tid, ip⟩
  count_le : (nodeOf w.rfHash ⟨policyId, cfgNode.tid, ip⟩).count ≤ cfgNode.count

theorem nodeOf_of_find {key : TrackingNodeKey A} {d : TrackingNode} (h : rfHash.find key = some d) :
    nodeOf rfHash key = d := by
  unfold nodeOf
  rw [h]
  rfl

theorem hasNode_of_find {key : TrackingNodeKey A} {d : TrackingNode} (h : rfHash.find key = some d) :
    HasNode rfHash key := by
  intro hnone
  rw [h] at hnone
  cases hnone

variable (hseconds : cfgNode.seconds = 0) (hdrop : cfgNode.newAction = .drop)

include hseconds hdrop in
/-- **One event**: the count stays that of the open sessions if and only if the event is timely. -/
theorem countsOpen_step_iff (h : WorldInv cfgNode policyId ip w) (hcounts : CountsOpen cfgNode policyId ip w)
    {e : SessionEvent A S} (hvalid : Valid cfgNode policyId cleared ip w e) :
    WorldInv cfgNode policyId ip (w.step cfgNode policyId cleared e) ∧
      (CountsOpen cfgNode policyId ip (w.step cfgNode policyId cleared e) ↔
        Timely cfgNode policyId ip w e) := by
  have hle := h.count_le
  cases e with
  | add session sip dip t =>
    obtain ⟨hfind, hlength⟩ := step_add h.hasNode hvalid
    obtain ⟨hdecision, hcount⟩ := @testNode_increment A cfgNode _ t hseconds hdrop hle
    unfold CountsOpen Timely at *
    rw [nodeOf_of_find hfind, hlength, hcount]
    simp only [hdecision]
    rw [← hcounts]
    generalize nodeOf w.rfHash ⟨policyId, cfgNode.tid, ip⟩ = d at *
    constructor
    · refine ⟨hasNode_of_find hfind, ?_⟩
      rw [nodeOf_of_find hfind, hcount]
      unfold incremented
      split <;> split <;> omega
    · unfold incremented
      by_cases hactive : Active cfgNode d t
      · by_cases hwrap : u32 (d.count + 1) = 0
        · simp only [hactive, hwrap, ne_eq, not_true_eq_false, if_false, and_false, or_true, forall_const,
            false_implies, and_true, iff_true]
          split <;> omega
        · simp only [hactive, hwrap, ne_eq, not_true_eq_false, not_false_eq_true, if_true, and_false,
            if_false, or_false, forall_const, false_implies, and_true]
          split <;> omega
      · by_cases hwrap : u32 (d.count + 1) = 0
        · simp only [hactive, hwrap, ne_eq, not_true_eq_false, not_false_eq_true, if_false, and_true,
            false_implies, true_and, forall_const, iff_false]
          split <;> omega
        · simp only [hactive, hwrap, ne_eq, not_false_eq_true, if_true, and_true, false_implies,
            implies_true, iff_true]
          split <;> split <;> omega
  | del session sip dip t =>
    obtain ⟨hfind, hlength⟩ := step_del h.hasNode hvalid
    have hcount := @testNode_decrement A cfgNode _ t hseconds hdrop hle
    unfold CountsOpen Timely at *
    rw [nodeOf_of_find hfind, hlength, hcount, ← hcounts]
    refine ⟨⟨hasNode_of_find hfind, ?_⟩, ⟨fun _ => trivial, fun _ => rfl⟩⟩
    rw [nodeOf_of_find hfind, hcount]
    omega

include hseconds hdrop in
/-- Along a run. -/
theorem countsAlong_iff (es : List (SessionEvent A S)) (h : WorldInv cfgNode policyId ip w)
    (hcounts : CountsOpen cfgNode policyId ip w) (hvalid : ValidAlong cfgNode policyId cleared ip w es) :
    CountsAlong cfgNode policyId cleared ip w es ↔ TimelyAlong cfgNode policyId cleared ip w es := by
  induction es generalizing w with
  | nil => exact Iff.rfl
  | cons e es ih =>
    obtain ⟨hinv, hstep⟩ := countsOpen_step_iff hseconds hdrop h hcounts hvalid.1
    constructor
    · rintro ⟨hhead, htail⟩
      exact ⟨hstep.1 hhead, (ih hinv hhead hvalid.2).1 htail⟩
    · rintro ⟨hhead, htail⟩
      have hopen := hstep.2 hhead
      exact ⟨hopen, (ih hinv hopen hvalid.2).2 htail⟩

/-- **The count is that of the open sessions** behind every event of a run, if and only if every addition
of the run is timely. -/
theorem countsAlong_iff_timely (cfgNode : ConfigNode A) (policyId : ℕ) (cleared ip : A)
    (rfHash : RfHash A) (es : List (SessionEvent A S)) (hseconds : cfgNode.seconds = 0)
    (hdrop : cfgNode.newAction = .drop)
    (hnew : rfHash.find ⟨policyId, cfgNode.tid, ip⟩ = none) (hroom : 0 < rfHash.room)
    (hvalid : ValidAlong cfgNode policyId cleared ip ⟨rfHash, []⟩ es) :
    CountsAlong cfgNode policyId cleared ip ⟨rfHash, []⟩ es ↔
      TimelyAlong cfgNode policyId cleared ip ⟨rfHash, []⟩ es := by
  have hnode : nodeOf rfHash ⟨policyId, cfgNode.tid, ip⟩ = .cleared := by
    unfold nodeOf
    rw [hnew]
    rfl
  refine countsAlong_iff hseconds hdrop es ⟨fun _ => hroom, ?_⟩ ?_ hvalid
  · rw [hnode]
    exact Nat.zero_le _
  · unfold CountsOpen
    rw [hnode]
    rfl

/-! ### A session that is added too early -/

/-- Two open sessions are admitted for each source address; the action never reverts. -/
def twoSessions : ConfigNode ℕ := ⟨1, .bySrc, 2, 0, .drop, 0, none⟩

theorem countsAlong_two_sessions :
    CountsAlong twoSessions 0 0 7 ⟨⟨[], 1, true⟩, []⟩
        [SessionEvent.add 1 7 8 0, .add 2 7 8 1, .add 3 7 8 2, .del 1 7 8 3] ↔
      TimelyAlong twoSessions 0 0 7 ⟨⟨[], 1, true⟩, []⟩
        [SessionEvent.add 1 7 8 0, .add 2 7 8 1, .add 3 7 8 2, .del 1 7 8 3] :=
  countsAlong_iff_timely twoSessions 0 0 7 ⟨[], 1, true⟩ _ rfl rfl rfl Nat.zero_lt_one
    ⟨⟨rfl, by decide⟩, ⟨rfl, by decide⟩, ⟨rfl, by decide⟩, ⟨rfl, by decide⟩, trivial⟩

/-- The third session is denied and the first one is deleted; the fourth is denied although only one is
open then, and is counted. -/
theorem denied_session_counted :
    ValidAlong twoSessions 0 0 7 ⟨⟨[], 1, true⟩, []⟩
        [SessionEvent.add 1 7 8 0, .add 2 7 8 1, .add 3 7 8 2, .del 1 7 8 3, .add 4 7 8 4] ∧
      ¬CountsAlong twoSessions 0 0 7 ⟨⟨[], 1, true⟩, []⟩
        [SessionEvent.add 1 7 8 0, .add 2 7 8 1, .add 3 7 8 2, .del 1 7 8 3, .add 4 7 8 4] := by
  refine ⟨⟨⟨rfl, by decide⟩, ⟨rfl, by decide⟩, ⟨rfl, by decide⟩, ⟨rfl, by decide⟩, ⟨rfl, by decide⟩,
    trivial⟩, ?_⟩
  rintro ⟨-, -, -, -, hcounts, -⟩
  exact absurd hcounts (by unfold CountsOpen; decide)

end Snort.RateFilter
