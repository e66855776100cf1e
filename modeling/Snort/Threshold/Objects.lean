import Snort.Threshold.Model
import Snort.Threshold.Sflsq

/-!
# The threshold objects: `sfthd_create_threshold` and `sfthd_test_threshold`

* `ThdObject`: a threshold object with the identifiers and the priority;
* `ThresholdObjects`: the lists of the local objects, by generator, policy and signature, and the global objects;
* `sfthdCreateThreshold`: an object is made;
* `sfthdTestThreshold`: an event for all objects of its signature.

The parser policy is an argument, and the runtime policy is in the event.  Allocations succeed.
-/

namespace Snort.Threshold

open CInt Sfxhash

/-- `THD_PRIORITY_SUPPRESS`. -/
def thdPrioritySuppress : ℤ := 1000000

/-- `THD_MAX_GENID`. -/
def thdMaxGenid : ℕ := 8129

/-- `THD_TOO_MANY_THDOBJ`. -/
def thdTooManyThdobj : ℤ := -15

/-- `POLICY_ALLOCATION_CHUNK`. -/
def policyAllocationChunk : ℕ := 10

/-- `THD_NODE`, with all its fields. -/
structure ThdObject (A : Type) extends ThdNode A where
  genId : ℕ
  sigId : ℕ
  priority : ℤ

/-- The counters of an object are written. -/
def ThdObject.setNode {A : Type} (x : ThdObject A) (node : ThdNode A) : ThdObject A := { x with toThdNode := node }

/-- `tThdItemKey`. -/
structure ThdItemKey where
  policyId : ℕ
  sigId : ℕ
  deriving DecidableEq

/-- `THD_ITEM`. -/
structure ThdItem (A : Type) where
  policyId : ℕ
  genId : ℕ
  sigId : ℕ
  sfthdNodeList : SfList (ThdObject A)

/-- `THD_IP_GNODE_KEY`. -/
structure ThdIpGnodeKey (A : Type) where
  genId : ℕ
  sigId : ℕ
  ip : A
  policyId : ℕ
  deriving DecidableEq

/-- `THD_STRUCT`. -/
structure ThdStruct (A : Type) where
  ipNodes : ThdHash A
  ipGnodes : SfxHash (ThdIpGnodeKey A) ThdIpNode

/-- `ThresholdObjects`; a pointer to a global object is its number. -/
structure ThresholdObjects (A : Type) where
  count : ℤ
  sfthdArray : ℕ → Option (ThdItemKey → Option (ThdItem A))
  sfthdGarray : ℕ → Option (ℕ → Option ℕ)
  numPoliciesAllocated : ℕ
  globals : ℕ → Option (ThdObject A)
  globalsAllocated : ℕ

section Create

variable {A : Type}

/-- `sfthd_objs_new`. -/
def sfthdObjsNew : ThresholdObjects A := ⟨0, fun _ => none, fun _ => none, 0, fun _ => none, 0⟩

/-- The loop that looks for the place of an object; at the end of the list nothing is added. -/
def insertLoop (sfthdNode : ThdObject A) : ℕ → SfList (ThdObject A) → Option (SfList (ThdObject A))
  | fuel, s =>
    match s.cur with
    | none => some s
    | some lnode =>
      match fuel with
      | 0 => none
      | fuel + 1 => do
        let sfthdN ← s.ndata lnode
        if sfthdN.priority < sfthdNode.priority then sflistAddBefore s lnode sfthdNode
        else if s.links.next lnode = none then sflistAddTail s sfthdNode
        else insertLoop sfthdNode fuel (sflistNext s)

/-- An object is put into a list. -/
def insertNode (s : SfList (ThdObject A)) (sfthdNode : ThdObject A) : Option (SfList (ThdObject A)) :=
  if s.count = 0 then some (sflistAddHead s sfthdNode)
  else insertLoop sfthdNode s.count (sflistFirst s)

/-- The test that there is only one object that does not suppress; 0 is passed. -/
def tailTest (s : SfList (ThdObject A)) (config : ThdObject A) : ℤ :=
  if 0 < s.count then
    match s.tail with
    | none => -10
    | some tail =>
      match s.ndata tail with
      | none => 0
      | some p => if p.type ≠ .suppress ∧ config.type ≠ .suppress then thdTooManyThdobj else 0
  else 0

/-- The priority that the object of a configuration has. -/
def objectPriority (config : ThdObject A) : ℤ :=
  if config.type = .suppress then thdPrioritySuppress
  else if thdPrioritySuppress ≤ config.priority then thdPrioritySuppress - 1
  else config.priority

/-- `sfthd_create_threshold_local`. -/
def sfthdCreateThresholdLocal (thdObjs : ThresholdObjects A) (policyId : ℕ) (config : ThdObject A) :
    Option (ℤ × ThresholdObjects A) :=
  if thdMaxGenid ≤ config.genId then some (-1, thdObjs)
  else
    let sfthdHash := (thdObjs.sfthdArray config.genId).getD fun _ => none
    let key : ThdItemKey := ⟨policyId, config.sigId⟩
    let sfthdItem := (sfthdHash key).getD ⟨policyId, config.genId, config.sigId, sflistNew⟩
    let store (list : SfList (ThdObject A)) : ThresholdObjects A :=
      { thdObjs with
        sfthdArray := Function.update thdObjs.sfthdArray config.genId
          (some (Function.update sfthdHash key (some { sfthdItem with sfthdNodeList := list }))) }
    let status := tailTest sfthdItem.sfthdNodeList config
    if status ≠ 0 then some (status, store sfthdItem.sfthdNodeList)
    else do
      let list ← insertNode sfthdItem.sfthdNodeList { config with priority := objectPriority config }
      some (0, store list)

/-- `sfthd_create_threshold_global`; a generator outside the array gives `none`. -/
def sfthdCreateThresholdGlobal (thdObjs : ThresholdObjects A) (policyId : ℕ) (config : ThdObject A) :
    Option (ℤ × ThresholdObjects A) :=
  let garray := (thdObjs.sfthdGarray policyId).getD fun _ => none
  let thdObjs := { thdObjs with sfthdGarray := Function.update thdObjs.sfthdGarray policyId (some garray) }
  let node := thdObjs.globalsAllocated
  let store (garray : ℕ → Option ℕ) : ThresholdObjects A :=
    { thdObjs with
      sfthdGarray := Function.update thdObjs.sfthdGarray policyId (some garray)
      globals := Function.update thdObjs.globals node (some config)
      globalsAllocated := node + 1 }
  if config.genId = 0 then
    if ∃ i < thdMaxGenid, garray i ≠ none then some (thdTooManyThdobj, thdObjs)
    else some (0, store fun i => if i < thdMaxGenid then some node else garray i)
  else if thdMaxGenid ≤ config.genId then none
  else if garray config.genId ≠ none then some (thdTooManyThdobj, thdObjs)
  else some (0, store (Function.update garray config.genId (some node)))

/-- `sfDynArrayCheckBounds` for `sfthd_garray`, and the array of the policy. -/
def sfthdGarrayCheckBounds (thdObjs : ThresholdObjects A) (policyId : ℕ) : ThresholdObjects A :=
  { thdObjs with
    sfthdGarray := Function.update thdObjs.sfthdGarray policyId
      (some ((thdObjs.sfthdGarray policyId).getD fun _ => none))
    numPoliciesAllocated :=
      if thdObjs.numPoliciesAllocated ≤ policyId then policyId + policyAllocationChunk
      else thdObjs.numPoliciesAllocated }

/-- The arguments of `sfthd_create_threshold`, with the parser policy. -/
structure ThdConfig (A : Type) where
  policyId : ℕ
  genId : ℕ
  sigId : ℕ
  tracking : ThdTracking
  type : ThdType
  priority : ℤ
  count : ℤ
  seconds : ℤ
  ipAddress : Option (A → Bool)

/-- `sfthd_create_threshold`. -/
def sfthdCreateThreshold (thdObjs : ThresholdObjects A) (c : ThdConfig A) : Option (ℤ × ThresholdObjects A) :=
  let thdObjs := { thdObjs with count := i32 (thdObjs.count + 1) }
  let sfthdNode : ThdObject A :=
    { thdId := thdObjs.count, genId := c.genId, sigId := c.sigId, tracking := c.tracking, type := c.type,
      priority := c.priority, count := c.count, seconds := u32 c.seconds, filtered := 0, ipAddress := c.ipAddress }
  let thdObjs := sfthdGarrayCheckBounds thdObjs c.policyId
  if c.sigId = 0 then sfthdCreateThresholdGlobal thdObjs c.policyId sfthdNode
  else if c.genId = 0 then some (-1, thdObjs)
  else sfthdCreateThresholdLocal thdObjs c.policyId sfthdNode

end Create

section Test

variable {A : Type} [DecidableEq A]

/-- `sfthd_test_global`; the last case is not reached (a node that was found is at the front). -/
def sfthdTestGlobal (globalHash : SfxHash (ThdIpGnodeKey A) ThdIpNode) (sfthdNode : ThdObject A) (sigId : ℕ)
    (e : Event A) : ℤ × ThdNode A × SfxHash (ThdIpGnodeKey A) ThdIpNode :=
  if sfthdNode.type = .suppress then
    let r := sfthdTestSuppress sfthdNode.toThdNode (sfthdNode.ip e)
    (r.1, r.2, globalHash)
  else
    let data : ThdIpNode := ⟨1, 0, e.curtime, e.curtime⟩
    let r := sfxhashAdd .cleared globalHash ⟨sfthdNode.genId, sigId, sfthdNode.ip e, e.policyId⟩ data
    match r.1, r.2.front with
    | .inTable, some ipNode =>
      let q := sfthdTestNonSuppress sfthdNode.toThdNode { ipNode with count := u32 (ipNode.count + 1) } e.curtime
      (q.1, q.2.1, r.2.setFront q.2.2)
    | .ok, _ =>
      let q := sfthdTestNonSuppress sfthdNode.toThdNode data e.curtime
      (q.1, q.2.1, r.2)
    | .noMem, _ => (1, sfthdNode.toThdNode, r.2)
    | .inTable, none => (1, sfthdNode.toThdNode, r.2)

/-- What a negative status means. -/
def blocked (status : ℤ) : ℤ := if status < -1 then 1 else -1

/-- The loop over the list of a signature: the answer, if there is one, the list and the hash table. -/
def testLoop (e : Event A) : ℕ → SfList (ThdObject A) → ThdHash A →
    Option (Option ℤ × SfList (ThdObject A) × ThdHash A)
  | fuel, s, ipNodes =>
    match s.cur with
    | none => some (none, s, ipNodes)
    | some lnode =>
      match fuel with
      | 0 => none
      | fuel + 1 => do
        let sfthdNode ← s.ndata lnode
        let r := sfthdTestLocal ipNodes sfthdNode.toThdNode e
        let s := s.setData lnode (sfthdNode.setNode r.2.1)
        if r.1 < 0 then some (some (blocked r.1), s, r.2.2)
        else if r.1 = 0 then some (some 0, s, r.2.2)
        else testLoop e fuel (sflistNext s) r.2.2

/-- What follows `global_test`; a policy outside the array gives `none`. -/
def globalTest (thdObjs : ThresholdObjects A) (thd : ThdStruct A) (genId sigId : ℕ) (e : Event A) :
    Option (ℤ × ThresholdObjects A × ThdStruct A) :=
  if thdObjs.numPoliciesAllocated = 0 then some (0, thdObjs, thd)
  else if thdObjs.numPoliciesAllocated ≤ e.policyId then none
  else
    match (thdObjs.sfthdGarray e.policyId).bind fun garray => garray genId with
    | none => some (0, thdObjs, thd)
    | some node => do
      let gThdNode ← thdObjs.globals node
      let r := sfthdTestGlobal thd.ipGnodes gThdNode sigId e
      let thdObjs :=
        { thdObjs with globals := Function.update thdObjs.globals node (some (gThdNode.setNode r.2.1)) }
      some (if r.1 < 0 then blocked r.1 else 0, thdObjs, { thd with ipGnodes := r.2.2 })

/-- `sfthd_test_threshold`. -/
def sfthdTestThreshold (thdObjs : ThresholdObjects A) (thd : ThdStruct A) (genId sigId : ℕ) (e : Event A) :
    Option (ℤ × ThresholdObjects A × ThdStruct A) :=
  if thdMaxGenid ≤ genId then some (0, thdObjs, thd)
  else
    match thdObjs.sfthdArray genId with
    | none => globalTest thdObjs thd genId sigId e
    | some sfthdHash =>
      match sfthdHash ⟨e.policyId, sigId⟩ with
      | none => globalTest thdObjs thd genId sigId e
      | some sfthdItem => do
        let list := sfthdItem.sfthdNodeList
        let r ← testLoop e list.count (sflistFirst list) thd.ipNodes
        let thdObjs :=
          { thdObjs with
            sfthdArray := Function.update thdObjs.sfthdArray genId
              (some (Function.update sfthdHash ⟨e.policyId, sigId⟩ (some { sfthdItem with sfthdNodeList := r.2.1 }))) }
        let thd := { thd with ipNodes := r.2.2 }
        match r.1 with
        | some status => some (status, thdObjs, thd)
        | none => globalTest thdObjs thd genId sigId e

end Test

end Snort.Threshold
