import Mathlib.Tactic

/-!
# The tree of sensitive-data patterns

* `Units`, `SDFOptionData`: patterns with their escape sequences, and the option data of a rule;
* `addPii`: a pattern is added to the tree, where it shares nodes with other patterns;
* `findPii`: a buffer is matched against the tree.

Patterns are expanded already, and there are no validation functions.  The root of the tree is the list of its
children.
-/

namespace Snort.Sdf

/-! ### Patterns -/

/-- The backslash. -/
def backslash : UInt8 := 92

/-- The question mark, which makes the character before it optional. -/
def optionalMark : UInt8 := 63

/-- A pattern is made of characters and of escape sequences. -/
inductive Units : List UInt8 → Prop
  | nil : Units []
  | char {c : UInt8} {p : List UInt8} : c ≠ backslash → Units p → Units (c :: p)
  | escape (c : UInt8) {p : List UInt8} : Units p → Units (backslash :: c :: p)

/-- `SDFOptionData`, with an expanded pattern: it has a first character, its escape sequences are complete, and its
length fits the counters of the search. -/
structure SDFOptionData where
  pii : List UInt8
  sid : ℕ
  gid : ℕ
  pos : pii ≠ []
  units : Units pii
  short : pii.length < 2 ^ 16
  deriving DecidableEq

/-- `sdf_tree_node`. -/
inductive SdfTreeNode
  | node (pattern : List UInt8) (optionData : List SDFOptionData) (children : List SdfTreeNode)

def SdfTreeNode.pattern : SdfTreeNode → List UInt8
  | .node pattern _ _ => pattern

def SdfTreeNode.optionData : SdfTreeNode → List SDFOptionData
  | .node _ optionData _ => optionData

def SdfTreeNode.children : SdfTreeNode → List SdfTreeNode
  | .node _ _ children => children

/-! ### Adding a pattern -/

/-- `overlapping_bytes` of `AddPiiPiece`: a whole escape sequence matches, or nothing of it. -/
def overlap : List UInt8 → List UInt8 → ℕ
  | c :: p, d :: q =>
    if c = d then
      if d = backslash then
        match p, q with
        | c' :: p', d' :: q' => if c' = d' then overlap p' q' + 2 else 0
        | [], [] => 1
        | _, _ => 0
      else overlap p q + 1
    else 0
  | _, _ => 0

/-- The option data of a node, for a pattern that it holds already; `num_option_data` has 16 bits. -/
def addOptionData (list : List SDFOptionData) (data : SDFOptionData) : List SDFOptionData :=
  if ∃ d ∈ list, d.sid = data.sid ∧ d.gid = data.gid then
    list.map fun d => if d.sid = data.sid ∧ d.gid = data.gid then data else d
  else if (list.length + 1) % 2 ^ 16 = 0 then []
  else list ++ [data]

/-- `AddChild`: the children behind it. -/
def addChild (children : List SdfTreeNode) (data : SDFOptionData) (pattern : List UInt8) : List SdfTreeNode :=
  children ++ [.node pattern [data] []]

mutual

/-- `AddPiiPiece`: the status and the node. -/
def addPiiPiece (data : SDFOptionData) : SdfTreeNode → List UInt8 → ℤ × SdfTreeNode
  | .node pattern optionData children, newPattern =>
    if newPattern = [] then (-1, .node pattern optionData children)
    else
      let overlapping := overlap pattern newPattern
      -- `SplitNode` with a `uint16_t`
      let splitIndex := overlapping % 2 ^ 16
      let upper := pattern.take splitIndex
      let lower := SdfTreeNode.node (pattern.drop splitIndex) optionData children
      let rest := newPattern.drop overlapping
      if overlapping = pattern.length ∧ rest = [] then
        (1, .node pattern (addOptionData optionData data) children)
      else if overlapping = pattern.length then
        match addPiiChildren data children rest with
        | some children => (1, .node pattern optionData children)
        | none => (1, .node pattern optionData (addChild children data rest))
      else if rest = [] then (1, .node upper [data] [lower])
      else if splitIndex > 0 then (1, .node upper [] (addChild [lower] data rest))
      else (0, .node pattern optionData children)

/-- The children of a node, if one of them takes the pattern. -/
def addPiiChildren (data : SDFOptionData) : List SdfTreeNode → List UInt8 → Option (List SdfTreeNode)
  | [], _ => none
  | child :: children, newPattern =>
    let r := addPiiPiece data child newPattern
    if r.1 = 1 then some (r.2 :: children) else (addPiiChildren data children newPattern).map (child :: ·)

end

/-- The loop of `AddPiiPattern` over the children of the root; an error of `AddPiiPiece` ends it as well. -/
def addPiiRoot (data : SDFOptionData) : List SdfTreeNode → Option (List SdfTreeNode)
  | [] => none
  | child :: children =>
    let r := addPiiPiece data child data.pii
    if r.1 ≠ 0 then some (r.2 :: children) else (addPiiRoot data children).map (child :: ·)

/-- `AddPii`, with `AddPiiPattern`. -/
def addPii (root : List SdfTreeNode) (data : SDFOptionData) : List SdfTreeNode :=
  (addPiiRoot data root).getD (addChild root data data.pii)

/-- The tree of some option data, one after the other. -/
def piiTree (datas : List SDFOptionData) : List SdfTreeNode := datas.foldl addPii []

/-! ### Matching a buffer -/

def isdigit (b : UInt8) : Bool := 48 ≤ b ∧ b ≤ 57

def isalpha (b : UInt8) : Bool := 65 ≤ b ∧ b ≤ 90 ∨ 97 ≤ b ∧ b ≤ 122

def isalnum (b : UInt8) : Bool := isalpha b || isdigit b

/-- An escape sequence matches a byte. -/
def escapeMatches (c b : UInt8) : Bool :=
  if c = backslash ∨ c = 123 ∨ c = 125 ∨ c = optionalMark then b = c
  else if c = 100 then isdigit b
  else if c = 68 then !isdigit b
  else if c = 119 then isalnum b
  else if c = 87 then !isalnum b
  else if c = 108 then isalpha b
  else if c = 76 then !isalpha b
  else true

/-- The first character or escape sequence of `c :: pattern`: whether it matches `b`, and the pattern behind it. -/
def matchUnit (c : UInt8) (pattern : List UInt8) (b : UInt8) : Bool × List UInt8 :=
  if c = backslash then
    match pattern with
    | [] => (b = c, [])
    | e :: pattern => (escapeMatches e b, pattern)
  else (b = c, pattern)

theorem length_matchUnit (c : UInt8) (pattern : List UInt8) (b : UInt8) :
    (matchUnit c pattern b).2.length ≤ pattern.length := by
  unfold matchUnit
  split_ifs
  · cases pattern with
    | nil => exact le_rfl
    | cons e pattern => exact Nat.le_succ _
  · exact le_rfl

/-- The loop of `FindPiiRecursively`: nothing, or the rest of the buffer.  A buffer that ends matches. -/
def matchPattern : List UInt8 → List UInt8 → Option (List UInt8)
  | [], buf => some buf
  | _ :: _, [] => some []
  | c :: pattern, b :: buf =>
    have := length_matchUnit c pattern b
    if (matchUnit c pattern b).2.head? = some optionalMark then
      matchPattern (matchUnit c pattern b).2.tail (if (matchUnit c pattern b).1 then buf else b :: buf)
    else if (matchUnit c pattern b).1 then matchPattern (matchUnit c pattern b).2 buf
    else none
  termination_by pattern => pattern.length
  decreasing_by
    · rw [List.length_tail, List.length_cons]
      omega
    · rw [List.length_cons]
      omega

mutual

/-- `FindPiiRecursively`: the node that matches and the rest of the buffer. -/
def findPiiRecursively : SdfTreeNode → List UInt8 → Option (SdfTreeNode × List UInt8)
  | .node pattern optionData children, buf =>
    if buf = [] then none
    else
      match matchPattern pattern buf with
      | none => none
      | some rest =>
        match findPii children rest with
        | some r => some r
        | none => if optionData = [] then none else some (.node pattern optionData children, rest)

/-- `FindPii`, and the loop over the children of a node. -/
def findPii : List SdfTreeNode → List UInt8 → Option (SdfTreeNode × List UInt8)
  | [], _ => none
  | child :: children, buf =>
    match findPiiRecursively child buf with
    | some r => some r
    | none => findPii children buf

end

end Snort.Sdf
