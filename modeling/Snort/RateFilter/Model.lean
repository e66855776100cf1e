import Snort.Lib.CInt
import Snort.Sfxhash.Table

/-!
# The rate filter

* `ConfigNode`, `RateFilterConfig`: the filters for each generator, signature and policy;
* `TrackingNode`: what is kept for a filter and an address, in a hash table with node recovery;
* `checkSamplingPeriod`, `checkThreshold`, `testNode`: an event for one node;
* `sfrfTestObject`: an event for one filter;
* `sfrfTestThreshold`: an event for all filters, with the nested call for a session that is deleted.

`A` is the type of addresses, with a cleared address for tracking by rule.
-/

namespace Snort.RateFilter

open CInt Sfxhash

/-- `RuleType`. -/
inductive RuleType
  | none | activate | alert | drop | dynamic | log | pass | reject | sdrop | max
  deriving DecidableEq

/-- The value of an action in C. -/
def RuleType.toInt : RuleType → ℤ
  | .none => 0
  | .activate => 1
  | .alert => 2
  | .drop => 3
  | .dynamic => 4
  | .log => 5
  | .pass => 6
  | .reject => 7
  | .sdrop => 8
  | .max => 9

/-- `SFRF_TRACK_BY_SRC` and the like. -/
inductive SfrfTrack
  | bySrc | byDst | byRule
  deriving DecidableEq

/-- `SFRF_COUNT_OPERATION`. -/
inductive CountOperation
  | nop | reset | increment | decrement
  deriving DecidableEq

/-- `FilterState`. -/
inductive FilterState
  | new | off | on
  deriving DecidableEq

/-- `tSFRFConfigNode`. -/
structure ConfigNode (A : Type*) where
  tid : ℕ
  tracking : SfrfTrack
  count : ℕ
  seconds : ℕ
  newAction : RuleType
  timeout : ℕ
  applyTo : Option (A → Bool)

/-- `RateFilterConfig`: the list of filters for a generator, a signature and a policy. -/
structure RateFilterConfig (A : Type*) where
  configNodeList : (gid sid policyId : ℕ) → Option (List (ConfigNode A))

/-- `tSFRFTrackingNodeKey`. -/
structure TrackingNodeKey (A : Type*) where
  policyId : ℕ
  tid : ℕ
  ip : A
  deriving DecidableEq

/-- `tSFRFTrackingNode`. -/
structure TrackingNode where
  filterState : FilterState
  overRate : Bool
  tlast : ℤ
  count : ℕ
  tstart : ℤ
  revertTime : ℤ
  deriving DecidableEq

/-- Cleared memory. -/
def TrackingNode.cleared : TrackingNode := ⟨.new, false, 0, 0, 0, 0⟩

variable {A : Type*}

/-! ### One node -/

/-- The first time initialization in `_getSFRFTrackingNode`. -/
def firstTime (dynNode : TrackingNode) (curTime : ℤ) : TrackingNode :=
  if dynNode.filterState = .new then
    { dynNode with tstart := curTime, tlast := curTime, filterState := .off }
  else dynNode

/-- `_checkSamplingPeriod`. -/
def checkSamplingPeriod (cfgNode : ConfigNode A) (dynNode : TrackingNode) (curTime : ℤ) : TrackingNode :=
  if cfgNode.seconds ≠ 0 then
    if cfgNode.seconds ≤ u32 (curTime - dynNode.tstart) then
      { dynNode with
        tstart := curTime
        overRate :=
          if cfgNode.seconds < u32 (curTime - dynNode.tlast) then false
          else cfgNode.count < dynNode.count
        tlast := curTime
        count := 0 }
    else { dynNode with tlast := curTime }
  else { dynNode with overRate := cfgNode.count < dynNode.count, tlast := curTime }

/-- The operation of an event on the count. -/
def countEvent (cfgNode : ConfigNode A) (dynNode : TrackingNode) : CountOperation → TrackingNode
  | .nop => dynNode
  | .reset => { dynNode with count := 0 }
  | .increment =>
    if u32 (dynNode.count + 1) ≠ 0 then { dynNode with count := dynNode.count + 1 } else dynNode
  | .decrement =>
    if cfgNode.seconds = 0 ∧ dynNode.count ≠ 0 then { dynNode with count := dynNode.count - 1 }
    else dynNode

/-- The part of `_checkThreshold` for a filter that is not on. -/
def checkRate (cfgNode : ConfigNode A) (dynNode : TrackingNode) (curTime : ℤ) : ℤ × TrackingNode :=
  if dynNode.count ≤ cfgNode.count ∧ dynNode.overRate = false then (-1, dynNode)
  else
    (RuleType.max.toInt + cfgNode.newAction.toInt,
      { dynNode with revertTime := curTime, filterState := .on, overRate := true })

/-- The new action has been on for the timeout. -/
def expired (cfgNode : ConfigNode A) (dynNode : TrackingNode) (curTime : ℤ) : Bool :=
  cfgNode.timeout ≠ 0 ∧ cfgNode.timeout ≤ u32 (curTime - dynNode.revertTime)

/-- `_checkThreshold`. -/
def checkThreshold (cfgNode : ConfigNode A) (dynNode : TrackingNode) (curTime : ℤ) : ℤ × TrackingNode :=
  if dynNode.filterState = .on then
    if expired cfgNode dynNode curTime then
      if cfgNode.count < dynNode.count ∨ dynNode.overRate = true then
        (cfgNode.newAction.toInt, { dynNode with revertTime := curTime })
      else checkRate cfgNode { dynNode with filterState := .off } curTime
    else (cfgNode.newAction.toInt, dynNode)
  else checkRate cfgNode dynNode curTime

/-- The count is corrected for a session that is dropped. -/
def compensate (cfgNode : ConfigNode A) (dynNode : TrackingNode) : TrackingNode :=
  if cfgNode.seconds = 0 ∧ cfgNode.count < dynNode.count ∧ cfgNode.newAction = .drop then
    { dynNode with count := dynNode.count - 1 }
  else dynNode

/-- What `SFRF_TestObject` does with its node. -/
def testNode (cfgNode : ConfigNode A) (dynNode : TrackingNode) (curTime : ℤ) (op : CountOperation) :
    ℤ × TrackingNode :=
  let dynNode := checkSamplingPeriod cfgNode (firstTime dynNode curTime) curTime
  let r := checkThreshold cfgNode (countEvent cfgNode dynNode op) curTime
  (r.1, compensate cfgNode r.2)

/-! ### The filters -/

/-- `rf_hash`. -/
abbrev RfHash (A : Type*) := SfxHash (TrackingNodeKey A) TrackingNode

variable [DecidableEq A]

def sfrfTestObject (rfHash : RfHash A) (policyId : ℕ) (cfgNode : ConfigNode A) (ip : A) (curTime : ℤ)
    (op : CountOperation) : ℤ × RfHash A :=
  match sfxhashGetNode .cleared rfHash ⟨policyId, cfgNode.tid, ip⟩ with
  | none => (-1, rfHash)
  | some (dynNode, rfHash) =>
    let r := testNode cfgNode dynNode curTime op
    (r.1, rfHash.setFront r.2)

def sfrfAppliesTo (pCfg : ConfigNode A) (ip : A) : Bool :=
  match pCfg.applyTo with
  | none => true
  | some contains => contains ip

/-- `SFRF_MAX_GENID`, `GENERATOR_INTERNAL` and the internal events. -/
def sfrfMaxGenid : ℕ := 8129

def generatorInternal : ℕ := 135

def internalEventSessionAdd : ℕ := 2

def internalEventSessionDel : ℕ := 3

/-- The arguments of `SFRF_TestThreshold`, with the runtime policy. -/
structure Call (A : Type*) where
  config : RateFilterConfig A
  policyId : ℕ
  gid : ℕ
  sid : ℕ
  sip : A
  dip : A
  curTime : ℤ
  op : CountOperation

/-- The address that a filter tracks, if it applies to the event. -/
def trackedIp (cleared : A) (c : Call A) (cfgNode : ConfigNode A) : Option A :=
  match cfgNode.tracking with
  | .bySrc => if sfrfAppliesTo cfgNode c.sip then some c.sip else none
  | .byDst => if sfrfAppliesTo cfgNode c.dip then some c.dip else none
  | .byRule => some cleared

/-- A round of the loop over the filters; `newStatus` is kept from round to round. -/
def testConfigNode (cleared : A) (c : Call A) (s : ℤ × ℤ × RfHash A) (cfgNode : ConfigNode A) :
    ℤ × ℤ × RfHash A :=
  let r := match trackedIp cleared c cfgNode with
    | some ip => sfrfTestObject s.2.2 c.policyId cfgNode ip c.curTime c.op
    | none => (s.2.1, s.2.2)
  (if 0 ≤ r.1 ∧ s.1 = -1 then r.1 else s.1, r.1, r.2)

/-- `SFRF_TestThreshold` behind the call of `_updateDependentThresholds`. -/
def testFilters (cleared : A) (rfHash : RfHash A) (c : Call A) : ℤ × RfHash A :=
  match c.config.configNodeList c.gid c.sid c.policyId with
  | none => (-1, rfHash)
  | some nodes =>
    let s := nodes.foldl (testConfigNode cleared c) (-1, -1, rfHash)
    (s.1, s.2.2)

/-- `_updateDependentThresholds`: the nested call is for an event that has no dependent ones. -/
def updateDependentThresholds (cleared : A) (rfHash : RfHash A) (c : Call A) : RfHash A :=
  if c.gid = generatorInternal ∧ c.sid = internalEventSessionDel then
    (testFilters cleared rfHash { c with sid := internalEventSessionAdd, op := .decrement }).2
  else rfHash

def sfrfTestThreshold (cleared : A) (rfHash : RfHash A) (c : Call A) : ℤ × RfHash A :=
  if sfrfMaxGenid ≤ c.gid then (-1, rfHash)
  else testFilters cleared (updateDependentThresholds cleared rfHash c) c

end Snort.RateFilter
