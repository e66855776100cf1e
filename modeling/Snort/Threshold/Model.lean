import Snort.Lib.CInt
import Snort.Sfxhash.Table

/-!
# Event thresholds

* `ThdNode`: a threshold object, made at the start;
* `ThdIpNode`: the count and the times of an address, in a hash table for all objects;
* `sfthdTestSuppress`, `sfthdTestNonSuppress`: an event for one object and the node of its address;
* `sfthdTestLocal`: an event for one object.

`A` is the type of addresses.
-/

namespace Snort.Threshold

open CInt Sfxhash

/-- `THD_TYPE_LIMIT` and the like. -/
inductive ThdType
  | limit | threshold | both | suppress | detect
  deriving DecidableEq

/-- `THD_TRK_NONE`, `THD_TRK_SRC` and `THD_TRK_DST`. -/
inductive ThdTracking
  | none | src | dst
  deriving DecidableEq

/-- `THD_NODE`. -/
structure ThdNode (A : Type*) where
  thdId : ℤ
  tracking : ThdTracking
  type : ThdType
  count : ℤ
  seconds : ℕ
  filtered : ℕ
  ipAddress : Option (A → Bool)

/-- `THD_IP_NODE`. -/
structure ThdIpNode where
  count : ℕ
  prev : ℕ
  tstart : ℤ
  tlast : ℤ
  deriving DecidableEq

/-- `THD_IP_NODE_KEY`. -/
structure ThdIpNodeKey (A : Type*) where
  thdId : ℤ
  ip : A
  policyId : ℕ
  deriving DecidableEq

/-- `THD_NO_THRESHOLD`. -/
def thdNoThreshold : ℤ := -1

variable {A : Type*}

/-- An event that is not logged. -/
def ThdNode.filter (sfthdNode : ThdNode A) : ThdNode A :=
  { sfthdNode with filtered := (sfthdNode.filtered + 1) % 2 ^ 64 }

/-- A period starts with an event. -/
def ThdIpNode.reset (sfthdIpNode : ThdIpNode) (curtime : ℤ) : ThdIpNode :=
  { sfthdIpNode with tstart := curtime, count := 1 }

def sfthdTestSuppress (sfthdNode : ThdNode A) (ip : A) : ℤ × ThdNode A :=
  if sfthdNode.ipAddress.all fun contains => contains ip then (-1, sfthdNode.filter)
  else (1, sfthdNode)

/-- The reset for `THD_TYPE_DETECT`. -/
def detectReset (sfthdNode : ThdNode A) (sfthdIpNode : ThdIpNode) (curtime : ℤ) : ThdIpNode :=
  { sfthdIpNode with
    tstart := curtime
    prev := if sfthdNode.seconds < u32 (curtime - sfthdIpNode.tlast) then 0
      else u32 ((sfthdIpNode.count : ℤ) - 1)
    count := 1 }

/-- `sfthd_test_non_suppress`: the answer, the threshold object and the node of the address. -/
def sfthdTestNonSuppress (sfthdNode : ThdNode A) (sfthdIpNode : ThdIpNode) (curtime : ℤ) :
    ℤ × ThdNode A × ThdIpNode :=
  let late := sfthdNode.seconds ≤ u32 (curtime - sfthdIpNode.tstart)
  match sfthdNode.type with
  | .detect =>
    let ipNode := if late then detectReset sfthdNode sfthdIpNode curtime else sfthdIpNode
    let ipNode := { ipNode with tlast := curtime }
    if sfthdNode.count < i32 ipNode.count ∨ sfthdNode.count < i32 ipNode.prev then
      (0, sfthdNode, ipNode)
    else (-2, sfthdNode.filter, ipNode)
  | .limit =>
    let ipNode := if late then sfthdIpNode.reset curtime else sfthdIpNode
    if i32 ipNode.count ≤ sfthdNode.count then (0, sfthdNode, ipNode)
    else (-2, sfthdNode.filter, ipNode)
  | .threshold =>
    let ipNode := if late then sfthdIpNode.reset curtime else sfthdIpNode
    if sfthdNode.count ≤ i32 ipNode.count then
      (0, sfthdNode, { ipNode with count := 0, tstart := curtime })
    else (-2, sfthdNode.filter, ipNode)
  | .both =>
    if late then (-2, sfthdNode.filter, sfthdIpNode.reset curtime)
    else if sfthdNode.count ≤ i32 sfthdIpNode.count then
      if sfthdNode.count < i32 sfthdIpNode.count then (-2, sfthdNode.filter, sfthdIpNode)
      else (0, sfthdNode, sfthdIpNode)
    else (-2, sfthdNode.filter, sfthdIpNode)
  | .suppress => (0, sfthdNode, sfthdIpNode)

/-- `local_hash`. -/
abbrev ThdHash (A : Type*) := SfxHash (ThdIpNodeKey A) ThdIpNode

/-- Cleared memory. -/
def ThdIpNode.cleared : ThdIpNode := ⟨0, 0, 0, 0⟩

/-- The arguments of an event, with the runtime policy. -/
structure Event (A : Type*) where
  policyId : ℕ
  sip : A
  dip : A
  curtime : ℤ

/-- The address that the object tracks. -/
def ThdNode.ip (sfthdNode : ThdNode A) (e : Event A) : A :=
  if sfthdNode.tracking = .src then e.sip else e.dip

def ThdNode.key (sfthdNode : ThdNode A) (e : Event A) : ThdIpNodeKey A :=
  ⟨sfthdNode.thdId, sfthdNode.ip e, e.policyId⟩

variable [DecidableEq A]

/-- `sfthd_test_local`; the last case is not reached (a node that was found is at the front). -/
def sfthdTestLocal (localHash : ThdHash A) (sfthdNode : ThdNode A) (e : Event A) :
    ℤ × ThdNode A × ThdHash A :=
  if sfthdNode.count = thdNoThreshold then (0, sfthdNode, localHash)
  else if sfthdNode.type = .suppress then
    let r := sfthdTestSuppress sfthdNode (sfthdNode.ip e)
    (r.1, r.2, localHash)
  else
    let data : ThdIpNode := ⟨1, 0, e.curtime, e.curtime⟩
    let r := sfxhashAdd .cleared localHash (sfthdNode.key e) data
    match r.1, r.2.front with
    | .inTable, some ipNode =>
      let q := sfthdTestNonSuppress sfthdNode { ipNode with count := u32 (ipNode.count + 1) } e.curtime
      (q.1, q.2.1, r.2.setFront q.2.2)
    | .ok, _ =>
      -- the test is made on a copy of the data
      let q := sfthdTestNonSuppress sfthdNode data e.curtime
      (q.1, q.2.1, r.2)
    | .noMem, _ => (1, sfthdNode, r.2)
    | .inTable, none => (1, sfthdNode, r.2)

end Snort.Threshold
