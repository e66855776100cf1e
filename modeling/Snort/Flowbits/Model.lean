import Snort.Flowbits.Bitop
import Snort.Lib.Table

/-!
# Flowbits

* `flowBitsInit`: a `flowbits` option of a rule is parsed; the bit gets an id, and may get a group;
* `flowBitsVerify`: ids of bits that are no longer used are freed behind a configuration;
* `flowBitsCheck`: an option is evaluated on the bits of a flow;
* `load`: configurations, one after the other.

An option is given by its tokens, the parts between commas; `none` is a fatal error.  `giFlowbitSize` is
the number of bytes for the bits.
-/

namespace Snort.Flowbits

/-- The name of a bit or a group, or a token. -/
abbrev Name := List Char

/-- `FLOWBITS_SET` and the like. -/
inductive FlowbitsType
  | set | unset | toggle | isset | isnotset | reset | noalert
  deriving DecidableEq

/-- `FLOWBITS_OBJECT`. -/
structure FlowbitsObject where
  id : ℕ
  toggle : Bool
  group : Option Name

/-- `FLOWBITS_GRP`. -/
structure FlowbitsGrp where
  count : ℕ
  maxId : ℕ
  grpBitOp : Bitop

/-- `FLOWBITS_OP`. -/
structure FlowbitsOp where
  id : ℕ
  type : FlowbitsType
  name : Option Name
  group : Option Name

/-- The static variables, and the options of the configuration that is parsed. -/
structure State where
  flowbitsHash : Table Name FlowbitsObject
  flowbitsGrpHash : Table Name FlowbitsGrp
  flowbitsBitQueue : List ℕ
  flowbitsCount : ℕ
  flowbitsToggle : Bool
  ops : List FlowbitsOp

/-- `DEFAULT_FLOWBIT_GROUP`. -/
def defaultFlowbitGroup : Name := ['d', 'e', 'f', 'a', 'u', 'l', 't']

/-- `strcasecmp` finds no difference. -/
def sameIgnoringCase (a b : Name) : Bool := a.map Char.toLower = b.map Char.toLower

/-! ### Parsing -/

def flowbitsType (token : Name) : Option FlowbitsType :=
  if sameIgnoringCase token ['s', 'e', 't'] then some .set
  else if sameIgnoringCase token ['u', 'n', 's', 'e', 't'] then some .unset
  else if sameIgnoringCase token ['t', 'o', 'g', 'g', 'l', 'e'] then some .toggle
  else if sameIgnoringCase token ['i', 's', 's', 'e', 't'] then some .isset
  else if sameIgnoringCase token ['i', 's', 'n', 'o', 't', 's', 'e', 't'] then some .isnotset
  else if sameIgnoringCase token ['n', 'o', 'a', 'l', 'e', 'r', 't'] then some .noalert
  else if sameIgnoringCase token ['r', 'e', 's', 'e', 't'] then some .reset
  else none

/-- The operations that may have a group. -/
def FlowbitsType.grouped (type : FlowbitsType) : Bool := type = .set ∨ type = .toggle

def isDelimiter (c : Char) : Bool := c = ' ' ∨ c = ',' ∨ c = '\t'

/-- The name of a bit is cut at a delimiter, by `strtok`. -/
def parseName (token : Name) : Option Name :=
  match token.dropWhile isDelimiter with
  | [] => some token
  | _ :: _ =>
    if (token.head?.map isDelimiter).getD false then none
    else some (token.takeWhile fun c => !isDelimiter c)

/-- The object for a name is found or made, with the toggle of the configuration. -/
def findItem (giFlowbitSize : ℕ) (name : Name) (s : State) : Option (State × FlowbitsObject) :=
  match s.flowbitsHash.find name with
  | some item =>
    let item := { item with toggle := s.flowbitsToggle }
    some ({ s with flowbitsHash := s.flowbitsHash.insert name item }, item)
  | none =>
    match s.flowbitsBitQueue with
    | id :: queue =>
      let item := ⟨id, s.flowbitsToggle, none⟩
      some ({ s with flowbitsHash := s.flowbitsHash.insert name item, flowbitsBitQueue := queue }, item)
    | [] =>
      let item := ⟨s.flowbitsCount, s.flowbitsToggle, none⟩
      let count := s.flowbitsCount + 1
      if giFlowbitSize * 8 < count then none
      else
        some ({ s with flowbitsHash := s.flowbitsHash.insert name item, flowbitsCount := count }, item)

/-- The token for the group; `some none` if the option has none. -/
def groupToken (type : FlowbitsType) : List Name → Option (Option Name)
  | [] => some (if type.grouped then some defaultFlowbitGroup else none)
  | token :: _ => if type.grouped then some (some token) else none

def newGrp (giFlowbitSize : ℕ) : FlowbitsGrp := ⟨0, 0, boSetAllBits (boInitBITOP giFlowbitSize)⟩

/-- A group that is not there yet is added, unless it is the default. -/
def ensureGrp (giFlowbitSize : ℕ) (token : Name) (grps : Table Name FlowbitsGrp) :
    Table Name FlowbitsGrp :=
  match grps.find token with
  | some _ => grps
  | none => if token = defaultFlowbitGroup then grps else grps.insert token (newGrp giFlowbitSize)

/-- The bit `id` becomes a member. -/
def FlowbitsGrp.join (grp : FlowbitsGrp) (id : ℕ) : FlowbitsGrp :=
  ⟨grp.count + 1, if grp.maxId < id then id else grp.maxId, boClearBit grp.grpBitOp id⟩

def joinGrp (token : Name) (id : ℕ) (grps : Table Name FlowbitsGrp) : Table Name FlowbitsGrp :=
  match grps.find token with
  | some grp => grps.insert token (grp.join id)
  | none => grps

/-- The group of an object is set, if it has none or the default one.  A new object has none. -/
def setGroup (giFlowbitSize : ℕ) (name token : Name) (item : FlowbitsObject) (s : State) :
    Option (State × Name) :=
  let grps := ensureGrp giFlowbitSize token s.flowbitsGrpHash
  let joined : State :=
    { s with
      flowbitsHash := s.flowbitsHash.insert name { item with group := some token }
      flowbitsGrpHash := if token = defaultFlowbitGroup then grps else joinGrp token item.id grps }
  match item.group with
  | none => some (joined, token)
  | some group =>
    if group = token then some ({ s with flowbitsGrpHash := grps }, group)
    else if group = defaultFlowbitGroup then some (joined, token)
    else if token = defaultFlowbitGroup then some ({ s with flowbitsGrpHash := grps }, group)
    else none

def flowBitsParse (giFlowbitSize : ℕ) (toks : List Name) (s : State) : Option (State × FlowbitsOp) :=
  match toks with
  | [] => none
  | token :: toks => do
    let type ← flowbitsType token
    if type = .noalert ∨ type = .reset then
      if toks ≠ [] then none else some (s, ⟨0, type, none, none⟩)
    else
      match toks with
      | [] => none
      | token :: toks =>
        let name ← parseName token
        let (s, item) ← findItem giFlowbitSize name s
        let token ← groupToken type toks
        match token with
        | none => some (s, ⟨item.id, type, some name, none⟩)
        | some token =>
          let (s, group) ← setGroup giFlowbitSize name token item s
          some (s, ⟨item.id, type, some name, some group⟩)

/-- `FlowBitsCompare` says that two options are equal. -/
def FlowbitsOp.same (l r : FlowbitsOp) : Bool := l.id = r.id ∧ l.type = r.type

/-- The group of an option that is there already is brought up to date. -/
def FlowbitsOp.sync (dup op : FlowbitsOp) : FlowbitsOp :=
  match dup.group, op.group with
  | some _, some group => { dup with group := some group }
  | _, _ => dup

/-- An option of the configuration; equal options share one structure. -/
def addOption (op : FlowbitsOp) (ops : List FlowbitsOp) : List FlowbitsOp :=
  if ops.any fun dup => dup.same op then ops.map fun dup => if dup.same op then dup.sync op else dup
  else ops ++ [op]

/-- A `flowbits` option, and the generator of its rule. -/
structure RuleOption where
  generator : ℕ
  toks : List Name

def flowBitsInit (giFlowbitSize : ℕ) (s : State) (opt : RuleOption) : Option State :=
  if opt.generator = 3 then some s
  else (flowBitsParse giFlowbitSize opt.toks s).map fun r => { r.1 with ops := addOption r.2 r.1.ops }

/-! ### Configurations -/

/-- A round of the loop of `FlowBitsVerify`. -/
def verifyItem (s : State) (name : Name) : State :=
  match s.flowbitsHash.find name with
  | none => s
  | some fb =>
    if fb.toggle ≠ s.flowbitsToggle then
      { s with
        flowbitsBitQueue := s.flowbitsBitQueue ++ [fb.id]
        flowbitsHash := s.flowbitsHash.remove name }
    else s

/-- `order` is the order in which the nodes of a hash table are found. -/
def flowBitsVerify (order : List Name → List Name) (s : State) : State :=
  let s := (order s.flowbitsHash.keys).foldl verifyItem s
  { s with flowbitsToggle := !s.flowbitsToggle }

/-- A configuration with its `flowbits` options is loaded. -/
def loadConfiguration (giFlowbitSize : ℕ) (order : List Name → List Name) (s : State)
    (options : List RuleOption) : Option State :=
  (options.foldlM (flowBitsInit giFlowbitSize) { s with ops := [] }).map (flowBitsVerify order)

/-- The configurations that are loaded one after the other; the last one is in use. -/
def load (giFlowbitSize : ℕ) (order : List Name → List Name) (configurations : List (List RuleOption)) :
    Option State :=
  configurations.foldlM (loadConfiguration giFlowbitSize order) ⟨.empty, .empty, [], 0, true, []⟩

/-! ### Checking -/

/-- The results of an option. -/
inductive DetectionOption
  | noMatch | isMatch | noAlert | failedBit
  deriving DecidableEq

/-- The bits of a group are cleared, byte by byte; `none` is the return value 0. -/
def boSetGrpBit (grps : Table Name FlowbitsGrp) (bitOp : Bitop) (group : Name) (uiPos : ℕ) :
    Option Bitop :=
  match grps.find group with
  | none => none
  | some grp =>
    if bitOp.uiMaxBits ≤ uiPos ∨ bitOp.uiMaxBits ≤ grp.maxId ∨ grp.count ≤ 0 then none
    else
      let bitOp := boClearBit bitOp uiPos
      some { bitOp with
        pucBitBuffer := (List.range (grp.maxId + 1)).foldl
          (fun buf i => Function.update buf (i / 8) (buf (i / 8) &&& grp.grpBitOp.pucBitBuffer (i / 8)))
          bitOp.pucBitBuffer }

/-- The operation clears the bits of its group. -/
def clearsGroup (op : FlowbitsOp) (bits : Bitop) : Option Name :=
  if op.type = .set ∨ op.type = .toggle ∧ boIsBitSet bits op.id = false then
    op.group.filter fun group => !sameIgnoringCase group defaultFlowbitGroup
  else none

/-- The operation on its own bit. -/
def checkBit (op : FlowbitsOp) (bits : Bitop) : DetectionOption × Bitop :=
  match op.type with
  | .set => (.isMatch, boSetBit bits op.id)
  | .unset => (.isMatch, boClearBit bits op.id)
  | .reset => (.isMatch, boResetBITOP bits)
  | .isset => (if boIsBitSet bits op.id then .isMatch else .failedBit, bits)
  | .isnotset => (if boIsBitSet bits op.id then .noMatch else .isMatch, bits)
  | .toggle =>
    (.isMatch, if boIsBitSet bits op.id then boClearBit bits op.id else boSetBit bits op.id)
  | .noalert => (.noAlert, bits)

/-- `FlowBitsCheck` on the bits of a flow. -/
def flowBitsCheck (grps : Table Name FlowbitsGrp) (op : FlowbitsOp) (bits : Bitop) :
    DetectionOption × Bitop :=
  match clearsGroup op bits with
  | none => checkBit op bits
  | some group =>
    match boSetGrpBit grps bits group op.id with
    | none => (.noMatch, bits)
    | some bits => checkBit op bits

end Snort.Flowbits
