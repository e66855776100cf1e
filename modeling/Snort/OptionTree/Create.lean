import Mathlib.Tactic

/-!
# Detection option trees

The options of the rules of a port group are kept in a tree, in which rules with the same first options
share nodes.

* `OptionType`, `OptFp`: an option of a rule, as the parser leaves it;
* `Node`: a node of the tree, with its array of children (`none` is a `NULL` slot);
* `otnCreateTree`: a rule is added to a tree.

The type `D` is that of the addresses of option data, `E` that of the functions that evaluate options,
`O` that of the rules.

A node is shared by all rules whose options up to there have the same option data.

* `Node.Wf`: what holds of every node: `relative_children` counts the relative children, no two children
  have the same option data, and a leaf can be reached;
* `route`: the nodes that a new rule runs through, the new ones included;
* `createBranch_spec`: one rule more is one path more, and no other path changes;
* **`optionTree_represents_iff`**: the tree represents exactly its rules if and only if options in the
  same place behind the same option data, with the same option data, are the same.
-/

namespace Snort.OptionTree

section

/-- `option_type_t`. -/
inductive OptionType
  | leafNode | asn1 | byteTest | byteJump | byteExtract | flow | cvs | dsize | flowbit | ftpbounce
  | icmpCode | icmpId | icmpSeq | icmpType | ipFragbits | ipFragOffset | ipId | ipOption | ipProto
  | ipSame | ipTos | isDataAt | fileData | base64Decode | base64Data | pktData | content | contentUri
  | pcre | react | respond | rpcCheck | session | tcpAck | tcpFlag | tcpSeq | tcpWin | ttl | urilen
  | hdrOptCheck | preprocessor | dynamic
  deriving DecidableEq, Repr

/-- `OptFpList`, with the `fp_only` of the pattern behind the context of a content. -/
structure OptFp (D E : Type*) where
  context : Option D
  type : OptionType
  optTestFunc : E
  isRelative : Bool
  fpOnly : Bool

/-- What `option_data` points to: the context of an option, which may be `NULL`, or a rule. -/
inductive OptionData (D O : Type*)
  | context (c : Option D)
  | otn (o : O)
  deriving DecidableEq

/-- `detection_option_tree_node_t`, as far as the tree is built from it. -/
inductive Node (D E O : Type*)
  | mk (optionData : OptionData D O) (optionType : OptionType) (evaluate : Option E) (isRelative : Bool)
    (relativeChildren : ℕ) (children : List (Option (Node D E O)))

/-- The array of children, with `num_children` slots. -/
abbrev Children (D E O : Type*) := List (Option (Node D E O))

variable {D E O : Type*}

def Node.optionData : Node D E O → OptionData D O
  | .mk d _ _ _ _ _ => d

def Node.isRelative : Node D E O → Bool
  | .mk _ _ _ r _ _ => r

def Node.relativeChildren : Node D E O → ℕ
  | .mk _ _ _ _ rc _ => rc

def Node.children : Node D E O → Children D E O
  | .mk _ _ _ _ _ cs => cs

/-- A leaf, or an option that is only for the fast pattern matcher, makes no node. -/
def OptFp.skipped (opt : OptFp D E) : Bool :=
  opt.type = .leafNode ∨ (opt.type = .content ∨ opt.type = .contentUri) ∧ opt.fpOnly

/-- A new node for an option; its array has one slot, which is `NULL`. -/
def newNode (opt : OptFp D E) : Node D E O :=
  .mk (.context opt.context) opt.type (some opt.optTestFunc) opt.isRelative 0 [none]

/-- A new leaf. -/
def leafNode (otn : O) : Node D E O := .mk (.otn otn) .leafNode none false 0 []

section Create

variable [DecidableEq D] [DecidableEq O]

/-- The child in this slot has the option data of `opt`. -/
def hasData (opt : OptFp D E) : Option (Node D E O) → Bool
  | some n => n.optionData = .context opt.context
  | none => false

/-- The child to go down to, the array, and `relative_children`: a new child in the first slot if that is
`NULL`, a child with the same option data, or a new one behind the others. -/
def selectChild (opt : OptFp D E) (children : Children D E O) (relativeChildren : ℕ) :
    ℕ × Children D E O × ℕ :=
  match children.head? with
  | some (some _) =>
    match children.findIdx? (hasData opt) with
    | some i => (i, children, relativeChildren)
    | none => (children.length, children ++ [some (newNode opt)],
        relativeChildren + opt.isRelative.toNat)
  | _ => (0, children.set 0 (some (newNode opt)), relativeChildren + opt.isRelative.toNat)

/-- The leaf at the end: in the slot of a new node, or behind the other children. -/
def appendLeaf (otn : O) (children : Children D E O) : Children D E O :=
  match children.head? with
  | some (some _) => children ++ [some (leafNode otn)]
  | _ => children.set (children.length - 1) (some (leafNode otn))

/-- The loop over the options, from a node with the given array and `relative_children` on. -/
def createBranch (otn : O) : List (OptFp D E) → Children D E O → ℕ → Children D E O × ℕ
  | [], children, relativeChildren => (appendLeaf otn children, relativeChildren)
  | opt :: opts, children, relativeChildren =>
    if opt.skipped then createBranch otn opts children relativeChildren
    else
      let (i, children, relativeChildren) := selectChild opt children relativeChildren
      match children[i]? with
      | some (some (.mk d t e r rc cs)) =>
        let (cs, rc) := createBranch otn opts cs rc
        (children.set i (some (.mk d t e r rc cs)), relativeChildren)
      | _ => (children, relativeChildren)

/-- `otn_create_tree`: the children of the root; `[]` where there is no tree yet. -/
def otnCreateTree (optFunc : O → List (OptFp D E)) (root : Children D E O) (otn : O) : Children D E O :=
  (createBranch otn (optFunc otn) (if root.isEmpty then [none] else root) 0).1

/-- The tree of a list of rules. -/
def optionTree (optFunc : O → List (OptFp D E)) (rules : List O) : Children D E O :=
  rules.foldl (otnCreateTree optFunc) []

end Create

/-! ### What a tree represents -/

/-- What a node stands for on a path: `option_type`, `option_data`, `evaluate`. -/
structure Label (D E O : Type*) where
  optionType : OptionType
  optionData : OptionData D O
  evaluate : Option E
  deriving DecidableEq

mutual

/-- The paths from a node to a leaf, each with the rule of the leaf. -/
def Node.paths : Node D E O → List (List (Label D E O) × O)
  | .mk (.otn o) _ _ _ _ _ => [([], o)]
  | .mk (.context c) t e _ _ cs => (pathsOf cs).map fun p => (⟨t, .context c, e⟩ :: p.1, p.2)

/-- The paths from an array of children. -/
def pathsOf : List (Option (Node D E O)) → List (List (Label D E O) × O)
  | [] => []
  | none :: cs => pathsOf cs
  | some n :: cs => n.paths ++ pathsOf cs

end

/-- The nodes of a tree. -/
inductive NodeOf : Children D E O → Node D E O → Prop
  | child {cs : Children D E O} {n : Node D E O} (h : some n ∈ cs) : NodeOf cs n
  | deeper {cs : Children D E O} {n m : Node D E O} (h : some m ∈ cs) (h' : NodeOf m.children n) :
    NodeOf cs n

/-- What an option stands for. -/
def OptFp.label (opt : OptFp D E) : Label D E O :=
  ⟨opt.type, .context opt.context, some opt.optTestFunc⟩

/-- The options of a rule that make nodes. -/
def labels (opts : List (OptFp D E)) : List (Label D E O) :=
  (opts.filter fun opt => !opt.skipped).map OptFp.label

end

/-! ## The rules of an option tree -/

variable {D E O : Type*}

/-! ### Paths -/

theorem pathsOf_eq_flatMap (cs : Children D E O) :
    pathsOf cs = cs.flatMap fun c => c.elim [] Node.paths := by
  induction cs with
  | nil => rw [pathsOf]; rfl
  | cons c cs ih =>
    cases c with
    | none => rw [pathsOf, ih]; rfl
    | some n => rw [pathsOf, ih]; rfl

@[simp] theorem pathsOf_append (cs cs' : Children D E O) :
    pathsOf (cs ++ cs') = pathsOf cs ++ pathsOf cs' := by
  simp only [pathsOf_eq_flatMap, List.flatMap_append]

@[simp] theorem pathsOf_none : pathsOf [(none : Option (Node D E O))] = [] := by
  simp [pathsOf_eq_flatMap]

@[simp] theorem pathsOf_some (n : Node D E O) (cs : Children D E O) :
    pathsOf (some n :: cs) = n.paths ++ pathsOf cs := by
  rw [pathsOf]

theorem mem_pathsOf {cs : Children D E O} {x : List (Label D E O) × O} :
    x ∈ pathsOf cs ↔ ∃ n, some n ∈ cs ∧ x ∈ n.paths := by
  rw [pathsOf_eq_flatMap, List.mem_flatMap]
  constructor
  · rintro ⟨c, hc, hx⟩
    cases c with
    | none => exact absurd hx (by simp)
    | some n => exact ⟨n, hc, hx⟩
  · rintro ⟨n, hn, hx⟩
    exact ⟨some n, hn, hx⟩

theorem paths_leafNode (otn : O) : (leafNode otn : Node D E O).paths = [([], otn)] := by
  rw [leafNode, Node.paths]

/-! ### Well-formed nodes -/

/-- The option data of a child, unless it is a leaf or there is none. -/
def slotContext : Option (Node D E O) → Option (Option D)
  | some (.mk (.context c) _ _ _ _ _) => some c
  | _ => none

def slotRelative : Option (Node D E O) → Bool
  | some n => n.isRelative
  | none => false

@[simp] theorem slotContext_leafNode (otn : O) :
    [some (leafNode otn : Node D E O)].filterMap slotContext = [] := rfl

@[simp] theorem slotContext_context (c : Option D) (t : OptionType) (e : Option E) (r : Bool) (rc : ℕ)
    (cs : Children D E O) :
    slotContext (some (.mk (.context c) t e r rc cs : Node D E O)) = some c := rfl

@[simp] theorem slotRelative_leafNode (otn : O) :
    slotRelative (some (leafNode otn : Node D E O)) = false := rfl

@[simp] theorem slotRelative_mk (d : OptionData D O) (t : OptionType) (e : Option E) (r : Bool) (rc : ℕ)
    (cs : Children D E O) : slotRelative (some (.mk d t e r rc cs)) = r := rfl

/-- What holds of every node of a tree. -/
inductive Node.Wf : Node D E O → Prop
  | leaf (otn : O) : (leafNode otn : Node D E O).Wf
  | option (c : Option D) (t : OptionType) (e : Option E) (r : Bool) (cs : Children D E O)
      (full : none ∉ cs) (live : pathsOf cs ≠ []) (distinct : (cs.filterMap slotContext).Nodup)
      (below : ∀ n, some n ∈ cs → n.Wf) :
      (Node.mk (.context c) t e r (cs.countP slotRelative) cs).Wf

/-- What holds of an array of children: it is that of a new node, or all slots are used. -/
structure WfChildren (cs : Children D E O) : Prop where
  slots : cs = [none] ∨ cs ≠ [] ∧ none ∉ cs
  distinct : (cs.filterMap slotContext).Nodup
  below : ∀ n, some n ∈ cs → n.Wf

theorem wfChildren_new : WfChildren [(none : Option (Node D E O))] where
  slots := Or.inl rfl
  distinct := List.nodup_nil
  below := by simp

theorem Node.Wf.paths_ne_nil {n : Node D E O} (h : n.Wf) : n.paths ≠ [] := by
  cases h with
  | leaf otn => simp [paths_leafNode]
  | option c t e r cs full live =>
    rw [Node.paths, ne_eq, List.map_eq_nil_iff]
    exact live

theorem relativeChildren_eq {cs : Children D E O} (h : ∀ n, some n ∈ cs → n.Wf) {n : Node D E O}
    (hn : NodeOf cs n) : n.relativeChildren = n.children.countP slotRelative := by
  induction hn with
  | child hmem =>
    cases h _ hmem with
    | leaf otn => rfl
    | option => rfl
  | deeper hmem _ ih =>
    apply ih
    cases h _ hmem with
    | leaf otn => exact fun n hn => absurd hn (by simp [leafNode, Node.children])
    | option c t e r cs full live distinct below => exact below

/-- The array that a new rule is added to. -/
def grown (root : Children D E O) : Children D E O := if root.isEmpty then [none] else root

theorem pathsOf_grown (root : Children D E O) : pathsOf (grown root) = pathsOf root := by
  cases root with
  | nil => simp [grown, pathsOf]
  | cons c cs => rfl

/-! ### One path more -/

theorem labels_cons_of_skipped {opt : OptFp D E} (h : opt.skipped = true) (opts : List (OptFp D E)) :
    (labels (opt :: opts) : List (Label D E O)) = labels opts := by
  simp [labels, h]

theorem labels_cons {opt : OptFp D E} (h : opt.skipped = false) (opts : List (OptFp D E)) :
    (labels (opt :: opts) : List (Label D E O)) = opt.label :: labels opts := by
  simp [labels, h]

/-- What adding the rule `otn` to an array of children makes of it: one path more. -/
structure Added (otn : O) (path : List (Label D E O)) (children : Children D E O) (rel : ℕ)
    (children' : Children D E O) (rel' : ℕ) : Prop where
  ne_nil : children' ≠ []
  full : none ∉ children'
  distinct : (children'.filterMap slotContext).Nodup
  below : ∀ n, some n ∈ children' → n.Wf
  paths : (pathsOf children').Perm (pathsOf children ++ [(path, otn)])
  relative : rel' + children.countP slotRelative = rel + children'.countP slotRelative

theorem Added.wf {otn : O} {path : List (Label D E O)} {children children' : Children D E O}
    {rel rel' : ℕ} (h : Added otn path children rel children' rel') : WfChildren children' :=
  ⟨Or.inr ⟨h.ne_nil, h.full⟩, h.distinct, h.below⟩

theorem added_leaf {children : Children D E O} (h : WfChildren children) (otn : O) (rel : ℕ) :
    Added otn [] children rel (appendLeaf otn children) rel := by
  rcases h.slots with rfl | ⟨hne, hfull⟩
  · refine ⟨by simp [appendLeaf], by simp [appendLeaf], ?_, ?_, ?_, ?_⟩
    · simp [appendLeaf]
    · intro n hn
      have : n = leafNode otn := by simpa [appendLeaf] using hn
      exact this ▸ .leaf otn
    · show (pathsOf [some (leafNode otn)]).Perm _
      simp [paths_leafNode, pathsOf]
    · simp [appendLeaf, slotRelative, leafNode, Node.isRelative]
  · have happ : appendLeaf otn children = children ++ [some (leafNode otn)] := by
      unfold appendLeaf
      cases children with
      | nil => exact absurd rfl hne
      | cons c cs =>
        cases c with
        | none => exact absurd List.mem_cons_self hfull
        | some n => rfl
    rw [happ]
    refine ⟨by simp, by simpa using hfull, ?_, ?_, ?_, ?_⟩
    · simpa using h.distinct
    · intro n hn
      rcases List.mem_append.1 hn with hn | hn
      · exact h.below n hn
      · have : n = leafNode otn := by simpa using hn
        exact this ▸ .leaf otn
    · simp [paths_leafNode, pathsOf]
    · simp

/-- A path that runs through the child `l₁.length`. -/
theorem Added.through {otn : O} {path : List (Label D E O)} {cs cs' : Children D E O} {rc' : ℕ}
    (h : Added otn path cs (cs.countP slotRelative) cs' rc') {children l₁ l₂ : Children D E O}
    {c : Option D} {t : OptionType} {e : Option E} {r : Bool} {rel rel' : ℕ}
    (hl₁ : ∀ n, some n ∈ l₁ → n.Wf) (hl₂ : ∀ n, some n ∈ l₂ → n.Wf) (hfull : none ∉ l₁ ++ l₂)
    (hdistinct : ((l₁ ++ some (.mk (.context c) t e r (cs.countP slotRelative) cs) :: l₂).filterMap
      slotContext).Nodup)
    (hpaths : pathsOf children = pathsOf l₁ ++
      (Node.mk (.context c) t e r (cs.countP slotRelative) cs).paths ++ pathsOf l₂)
    (hrel : rel' + children.countP slotRelative =
      rel + (l₁.countP slotRelative + (r.toNat + l₂.countP slotRelative))) :
    Added otn (⟨t, .context c, e⟩ :: path) children rel
      (l₁ ++ some (.mk (.context c) t e r rc' cs') :: l₂) rel' := by
  have hrc : rc' = cs'.countP slotRelative := by
    have := h.relative
    omega
  have hlive : pathsOf cs' ≠ [] := by
    intro hnil
    have hlen := h.paths.length_eq
    rw [hnil] at hlen
    simp at hlen
  refine ⟨by simp, ?_, ?_, ?_, ?_, ?_⟩
  · intro hmem
    rcases List.mem_append.1 hmem with hmem | hmem
    · exact hfull (List.mem_append_left _ hmem)
    · exact hfull (List.mem_append_right _ (by simpa using hmem))
  · simpa using hdistinct
  · intro n hn
    rcases List.mem_append.1 hn with hn | hn
    · exact hl₁ n hn
    · rcases List.mem_cons.1 hn with heq | hn
      · rw [Option.some.inj heq, hrc]
        exact .option c t e r cs' h.full hlive h.distinct h.below
      · exact hl₂ n hn
  · rw [hpaths, pathsOf_append, pathsOf_some, Node.paths, Node.paths, List.append_assoc,
      List.append_assoc]
    refine List.Perm.append_left _ ?_
    refine ((h.paths.map _).append_right _).trans ?_
    rw [List.map_append, List.append_assoc]
    refine List.Perm.append_left _ ?_
    exact List.perm_append_comm
  · rw [List.countP_append, List.countP_cons, hrel]
    cases r <;> simp [Nat.add_comm]

/-! ### The child to go down to -/

variable [DecidableEq D] [DecidableEq O]

theorem hasData_iff {opt : OptFp D E} {c : Option (Node D E O)} :
    hasData opt c = true ↔
      ∃ t e r rc cs, c = some (.mk (.context opt.context) t e r rc cs) := by
  cases c with
  | none => simp [hasData]
  | some n =>
    obtain ⟨d, t, e, r, rc, cs⟩ := n
    show decide (d = .context opt.context) = true ↔ _
    rw [decide_eq_true_iff]
    constructor
    · rintro rfl
      exact ⟨t, e, r, rc, cs, rfl⟩
    · rintro ⟨_, _, _, _, _, h⟩
      cases h
      rfl

/-- What `selectChild` does: a child with the same option data is found, or there is a new one, which has
one `NULL` slot. -/
theorem selectChild_cases (opt : OptFp D E) {children : Children D E O} (h : WfChildren children)
    (rel : ℕ) :
    (∃ l₁ l₂ t e r rc cs, children = l₁ ++ some (.mk (.context opt.context) t e r rc cs) :: l₂ ∧
      children.find? (hasData opt) = some (some (.mk (.context opt.context) t e r rc cs)) ∧
      selectChild opt children rel = (l₁.length, children, rel)) ∨
    (∃ l₁, (children = [none] ∧ l₁ = [] ∨ children = l₁ ∧ none ∉ l₁) ∧
      children.find? (hasData opt) = none ∧
      selectChild opt children rel =
        (l₁.length, l₁ ++ [some (newNode opt)], rel + opt.isRelative.toNat)) := by
  rcases h.slots with rfl | ⟨hne, hfull⟩
  · exact Or.inr ⟨[], Or.inl ⟨rfl, rfl⟩, rfl, rfl⟩
  · obtain ⟨n, cs, rfl⟩ : ∃ n cs, children = some n :: cs := by
      cases children with
      | nil => exact absurd rfl hne
      | cons c cs =>
        cases c with
        | none => exact absurd List.mem_cons_self hfull
        | some n => exact ⟨n, cs, rfl⟩
    cases hfind : (some n :: cs).findIdx? (hasData opt) with
    | none =>
      right
      refine ⟨some n :: cs, Or.inr ⟨rfl, hfull⟩, ?_, ?_⟩
      · rw [List.find?_eq_none]
        rw [List.findIdx?_eq_none_iff] at hfind
        intro x hx
        simpa using hfind x hx
      · simp [selectChild, hfind]
    | some i =>
      left
      obtain ⟨hi, hdata, hbefore⟩ := List.findIdx?_eq_some_iff_getElem.1 hfind
      obtain ⟨t, e, r, rc, cs', heq⟩ := hasData_iff.1 hdata
      refine ⟨(some n :: cs).take i, (some n :: cs).drop (i + 1), t, e, r, rc, cs', ?_, ?_, ?_⟩
      · rw [← heq, List.getElem_cons_drop, List.take_append_drop]
      · rw [← heq]
        exact List.find?_eq_some_iff_getElem.2 ⟨hdata, i, hi, rfl, fun j hj => by
          simpa using hbefore j hj⟩
      · rw [List.length_take_of_le hi.le]
        simp [selectChild, hfind]

/-! ### One rule -/

/-- The path of a new rule: through children with the same option data, then through new nodes. -/
def route : List (OptFp D E) → Children D E O → List (Label D E O)
  | [], _ => []
  | opt :: opts, children =>
    if opt.skipped then route opts children
    else
      match children.find? (hasData opt) with
      | some (some (.mk d t e _ _ cs)) => ⟨t, d, e⟩ :: route opts cs
      | _ => labels (opt :: opts)

theorem route_new (opts : List (OptFp D E)) :
    route opts [(none : Option (Node D E O))] = labels opts := by
  induction opts with
  | nil => rfl
  | cons opt opts ih =>
    cases hskip : opt.skipped with
    | true => rw [route, if_pos hskip, ih, labels_cons_of_skipped hskip]
    | false => rw [route, if_neg (by simp [hskip])]; rfl

/-- **One rule more**: one path more, along its route. -/
theorem createBranch_spec (otn : O) (opts : List (OptFp D E)) :
    ∀ {children : Children D E O} (rel : ℕ), WfChildren children →
      Added otn (route opts children) children rel (createBranch otn opts children rel).1
        (createBranch otn opts children rel).2 := by
  induction opts with
  | nil => exact fun rel h => added_leaf h otn rel
  | cons opt opts ih =>
    intro children rel h
    cases hskip : opt.skipped with
    | true =>
      rw [createBranch, if_pos hskip, route, if_pos hskip]
      exact ih rel h
    | false =>
      rw [createBranch, if_neg (by simp [hskip]), route, if_neg (by simp [hskip])]
      rcases selectChild_cases opt h rel with ⟨l₁, l₂, t, e, r, rc, cs, hsplit, hfind, hsel⟩ |
        ⟨l₁, hnew, hfind, hsel⟩
      · -- a child is shared
        have hwf : (Node.mk (.context opt.context) t e r rc cs : Node D E O).Wf :=
          h.below _ (by rw [hsplit]; simp)
        obtain ⟨rfl, hcs⟩ : rc = cs.countP slotRelative ∧ WfChildren cs := by
          cases hwf with
          | option _ _ _ _ _ full live distinct below =>
            refine ⟨rfl, Or.inr ⟨?_, full⟩, distinct, below⟩
            rintro rfl
            exact live (by rw [pathsOf])
        have hget : children[l₁.length]? =
            some (some (.mk (.context opt.context) t e r (cs.countP slotRelative) cs)) := by
          rw [hsplit]
          simp
        have hset : ∀ x, children.set l₁.length x = l₁ ++ x :: l₂ := by
          intro x
          rw [hsplit]
          simp
        have hfull : none ∉ children := by
          rcases h.slots with hnone | ⟨-, hfull⟩
          · rw [hnone] at hfind
            simp [hasData] at hfind
          · exact hfull
        rw [hsel, hfind]
        simp only [hget, hset]
        refine (ih _ hcs).through ?_ ?_ ?_ ?_ ?_ ?_
        · exact fun n hn => h.below n (by rw [hsplit]; exact List.mem_append_left _ hn)
        · exact fun n hn => h.below n (by
            rw [hsplit]; exact List.mem_append_right _ (List.mem_cons_of_mem _ hn))
        · intro hmem
          apply hfull
          rw [hsplit]
          rcases List.mem_append.1 hmem with hmem | hmem
          · exact List.mem_append_left _ hmem
          · exact List.mem_append_right _ (List.mem_cons_of_mem _ hmem)
        · rw [← hsplit]
          exact h.distinct
        · rw [hsplit, pathsOf_append, pathsOf_some, List.append_assoc]
        · rw [hsplit, List.countP_append, List.countP_cons]
          cases r <;> simp [Nat.add_comm]
      · -- a new child
        have hget : (l₁ ++ [some (newNode opt : Node D E O)])[l₁.length]? =
            some (some (.mk (.context opt.context) opt.type (some opt.optTestFunc) opt.isRelative 0
              [none])) := by simp [newNode]
        have hset : ∀ x, (l₁ ++ [some (newNode opt : Node D E O)]).set l₁.length x = l₁ ++ [x] := by
          simp
        have hnone : none ∉ l₁ := by
          rcases hnew with ⟨-, rfl⟩ | ⟨-, hfull⟩
          · simp
          · exact hfull
        have hpaths : pathsOf children = pathsOf l₁ := by
          rcases hnew with ⟨rfl, rfl⟩ | ⟨rfl, -⟩
          · simp [pathsOf]
          · rfl
        have hcount : children.countP slotRelative = l₁.countP slotRelative := by
          rcases hnew with ⟨rfl, rfl⟩ | ⟨rfl, -⟩
          · rfl
          · rfl
        have hcontext : children.filterMap slotContext = l₁.filterMap slotContext := by
          rcases hnew with ⟨rfl, rfl⟩ | ⟨rfl, -⟩
          · rfl
          · rfl
        have hmem : ∀ n, some n ∈ l₁ → n.Wf := by
          rcases hnew with ⟨-, rfl⟩ | ⟨rfl, -⟩
          · simp
          · exact h.below
        have hfresh : opt.context ∉ l₁.filterMap slotContext := by
          rw [← hcontext, List.mem_filterMap]
          rintro ⟨x, hx, hslot⟩
          rw [List.find?_eq_none] at hfind
          apply hfind x hx
          rw [hasData_iff]
          obtain _ | ⟨_ | _, t, e, r, rc, cs⟩ := x
          · cases hslot
          · obtain rfl := Option.some.inj hslot
            exact ⟨t, e, r, rc, cs, rfl⟩
          · cases hslot
        rw [hsel, hfind]
        simp only [hget, hset]
        have hroute := ih 0 (wfChildren_new (D := D) (E := E) (O := O))
        rw [route_new] at hroute
        have hthrough := @Added.through D E O otn (labels opts) [none] _ _ hroute children l₁ []
          opt.context opt.type (some opt.optTestFunc) opt.isRelative rel
          (rel + opt.isRelative.toNat) hmem (by simp) (by simpa using hnone) ?_ ?_ ?_
        · rw [labels_cons hskip]
          exact hthrough
        · rw [List.filterMap_append]
          simp only [List.filterMap_cons, slotContext_context, List.filterMap_nil]
          rw [List.nodup_append]
          refine ⟨hcontext ▸ h.distinct, by simp, ?_⟩
          intro a ha b hb
          rw [List.mem_singleton.1 hb]
          rintro rfl
          exact hfresh ha
        · rw [hpaths, Node.paths]
          simp [pathsOf]
        · rw [hcount]
          simp
          omega

/-! ### The route of a rule -/

theorem eq_of_nodup_filterMap {α β : Type*} {f : α → Option β} {l : List α} (h : (l.filterMap f).Nodup)
    {a b : α} {c : β} (ha : a ∈ l) (hb : b ∈ l) (hfa : f a = some c) (hfb : f b = some c) : a = b := by
  induction l with
  | nil => exact absurd ha (by simp)
  | cons x l ih =>
    have hsub : (l.filterMap f).Nodup := h.sublist ((List.sublist_cons_self x l).filterMap f)
    have hnot : ∀ y ∈ l, f y = some c → f x ≠ some c := by
      intro y hy hfy hfx
      rw [List.filterMap_cons_some hfx] at h
      exact (List.nodup_cons.1 h).1 (List.mem_filterMap.2 ⟨y, hy, hfy⟩)
    rcases List.mem_cons.1 ha with rfl | ha'
    · rcases List.mem_cons.1 hb with rfl | hb'
      · rfl
      · exact absurd hfa (hnot b hb' hfb)
    · rcases List.mem_cons.1 hb with rfl | hb'
      · exact absurd hfb (hnot a ha' hfa)
      · exact ih hsub ha' hb'

/-- The child that is found is well formed. -/
theorem wf_of_find {opt : OptFp D E} {children : Children D E O} (h : WfChildren children)
    {x : Option (Node D E O)} (hfind : children.find? (hasData opt) = some x) :
    ∃ t e r cs, x = some (.mk (.context opt.context) t e r (cs.countP slotRelative) cs) ∧
      WfChildren cs ∧ pathsOf cs ≠ [] ∧
      ∀ y ∈ pathsOf cs, (⟨t, .context opt.context, e⟩ :: y.1, y.2) ∈ pathsOf children := by
  obtain ⟨t, e, r, rc, cs, rfl⟩ := hasData_iff.1 (List.find?_some hfind)
  have hmem := List.mem_of_find?_eq_some hfind
  have hwf := h.below _ hmem
  cases hwf with
  | option _ _ _ _ _ full live distinct below =>
    refine ⟨t, e, r, cs, rfl, ⟨Or.inr ⟨?_, full⟩, distinct, below⟩, live, ?_⟩
    · rintro rfl
      exact live (by rw [pathsOf])
    · intro y hy
      refine mem_pathsOf.2 ⟨_, hmem, ?_⟩
      rw [Node.paths]
      exact List.mem_map.2 ⟨y, hy, rfl⟩

/-- The route runs along a path of the tree, as far as nodes are shared, and then through the options of
the rule; the option data are those of the rule all the way. -/
theorem route_split (opts : List (OptFp D E)) : ∀ {children : Children D E O}, WfChildren children →
    (route opts children).map Label.optionData = (labels opts).map Label.optionData ∧
      ∃ m, (route opts children).drop m = (labels opts).drop m ∧
        (m = 0 ∨ ∃ x ∈ pathsOf children, (route opts children).take m = x.1.take m) := by
  induction opts with
  | nil => exact fun _ => ⟨rfl, 0, rfl, Or.inl rfl⟩
  | cons opt opts ih =>
    intro children h
    cases hskip : opt.skipped with
    | true =>
      rw [route, if_pos hskip, labels_cons_of_skipped hskip]
      exact ih h
    | false =>
      rw [route, if_neg (by simp [hskip])]
      cases hfind : children.find? (hasData opt) with
      | none => exact ⟨rfl, 0, rfl, Or.inl rfl⟩
      | some x =>
        obtain ⟨t, e, r, cs, rfl, hcs, hlive, hpaths⟩ := wf_of_find h hfind
        obtain ⟨hdata, m, hdrop, htake⟩ := ih hcs
        rw [labels_cons hskip]
        refine ⟨by rw [List.map_cons, List.map_cons, hdata]; rfl, m + 1, by simpa using hdrop, Or.inr ?_⟩
        rcases htake with rfl | ⟨y, hy, heq⟩
        · -- the last shared node: any path through it
          obtain ⟨y, hy⟩ := List.exists_mem_of_ne_nil _ hlive
          exact ⟨_, hpaths y hy, by simp⟩
        · exact ⟨_, hpaths y hy, by simp [heq]⟩

/-- A path with the same option data is followed. -/
theorem route_of_path (opts : List (OptFp D E)) : ∀ {children : Children D E O}, WfChildren children →
    ∀ x ∈ pathsOf children, ∀ k,
      (x.1.take k).map Label.optionData = ((labels opts).take k).map Label.optionData →
      (route opts children).take k = x.1.take k := by
  induction opts with
  | nil =>
    intro children h x hx k heq
    have hnil : x.1.take k = [] := by simpa [labels] using heq
    rw [hnil]
    simp [route]
  | cons opt opts ih =>
    intro children h x hx k heq
    cases hskip : opt.skipped with
    | true =>
      rw [route, if_pos hskip]
      rw [labels_cons_of_skipped hskip] at heq
      exact ih h x hx k heq
    | false =>
      rw [labels_cons hskip] at heq
      rw [route, if_neg (by simp [hskip])]
      cases k with
      | zero => simp
      | succ k =>
        -- the first node of the path
        obtain ⟨n, hn, hxn⟩ := mem_pathsOf.1 hx
        obtain ⟨d, t, e, r, rc, cs⟩ := n
        cases d with
        | otn o =>
          rw [Node.paths, List.mem_singleton] at hxn
          rw [hxn] at heq
          simp at heq
        | context c =>
          rw [Node.paths, List.mem_map] at hxn
          obtain ⟨y, hy, rfl⟩ := hxn
          simp only [List.take_succ_cons, List.map_cons, OptFp.label, List.cons.injEq,
            OptionData.context.injEq] at heq
          obtain ⟨rfl, heq⟩ := heq
          have hdata : hasData opt (some (.mk (.context opt.context) t e r rc cs : Node D E O)) = true :=
            hasData_iff.2 ⟨t, e, r, rc, cs, rfl⟩
          cases hfind : children.find? (hasData opt) with
          | none => exact absurd hdata (List.find?_eq_none.1 hfind _ hn)
          | some z =>
            obtain ⟨t', e', r', cs', rfl, hcs, -, -⟩ := wf_of_find h hfind
            have hsame := eq_of_nodup_filterMap h.distinct hn (List.mem_of_find?_eq_some hfind)
              (slotContext_context ..) (slotContext_context ..)
            obtain ⟨-, rfl, rfl, -, -, rfl⟩ := Node.mk.inj (Option.some.inj hsame)
            simp only [List.take_succ_cons]
            rw [ih hcs y hy k heq]

/-! ### All rules -/

variable (optFunc : O → List (OptFp D E))

theorem optionTree_concat (rules : List O) (r : O) :
    optionTree optFunc (rules ++ [r]) =
      (createBranch r (optFunc r) (grown (optionTree optFunc rules)) 0).1 := by
  simp only [optionTree, List.foldl_append, List.foldl_cons, List.foldl_nil]
  rfl

theorem wfChildren_grown (rules : List O) : WfChildren (grown (optionTree optFunc rules)) := by
  induction rules using List.reverseRecOn with
  | nil => exact wfChildren_new
  | append_singleton rules r ih =>
    have hadded := createBranch_spec r (optFunc r) 0 ih
    rw [← optionTree_concat] at hadded
    have hgrown : grown (optionTree optFunc (rules ++ [r])) = optionTree optFunc (rules ++ [r]) := by
      unfold grown
      rw [if_neg]
      simpa using hadded.ne_nil
    rw [hgrown]
    exact hadded.wf

/-- One rule more is one path more. -/
theorem pathsOf_concat (rules : List O) (r : O) :
    (pathsOf (optionTree optFunc (rules ++ [r]))).Perm (pathsOf (optionTree optFunc rules) ++
      [(route (optFunc r) (grown (optionTree optFunc rules)), r)]) := by
  have hadded := createBranch_spec r (optFunc r) 0 (wfChildren_grown optFunc rules)
  rw [← optionTree_concat] at hadded
  rw [← pathsOf_grown (optionTree optFunc rules)]
  exact hadded.paths

/-- No path is lost. -/
theorem pathsOf_subset {rules rules' : List O} (h : rules <+: rules') :
    pathsOf (optionTree optFunc rules) ⊆ pathsOf (optionTree optFunc rules') := by
  obtain ⟨rest, rfl⟩ := h
  induction rest using List.reverseRecOn with
  | nil => simp
  | append_singleton rest r ih =>
    intro x hx
    rw [← List.append_assoc]
    exact (pathsOf_concat optFunc _ r).mem_iff.2 (List.mem_append_left _ (ih hx))

/-- The paths of the tree are the rules, as lists of options. -/
def Represents (root : Children D E O) (rules : List O) : Prop :=
  (pathsOf root).Perm (rules.map fun r => (labels (optFunc r), r))

/-- Options that stand in the same place, behind the same option data, and have the same option data
themselves, have the same type and the same function. -/
def Consistent (rules : List O) : Prop :=
  ∀ r ∈ rules, ∀ r' ∈ rules, ∀ k,
    ((labels (optFunc r)).take k).map (Label.optionData (O := O)) =
      ((labels (optFunc r')).take k).map Label.optionData →
    ((labels (optFunc r)).take k : List (Label D E O)) = (labels (optFunc r')).take k

theorem represents_of_consistent {rules : List O} (h : Consistent optFunc rules) :
    Represents optFunc (optionTree optFunc rules) rules := by
  induction rules using List.reverseRecOn with
  | nil => simp [Represents, optionTree, pathsOf]
  | append_singleton rules r ih =>
    have ih := ih fun a ha b hb => h a (List.mem_append_left _ ha) b (List.mem_append_left _ hb)
    -- the nodes that are shared are those of a rule with the same option data
    have hroute : route (optFunc r) (grown (optionTree optFunc rules)) = labels (optFunc r) := by
      obtain ⟨hdata, m, hdrop, htake⟩ := route_split (optFunc r) (wfChildren_grown optFunc rules)
      have htake' : (route (optFunc r) (grown (optionTree optFunc rules))).take m =
          (labels (optFunc r)).take m := by
        rcases htake with rfl | ⟨x, hx, heq⟩
        · simp
        · rw [pathsOf_grown] at hx
          obtain ⟨r', hr', rfl⟩ := List.mem_map.1 (ih.mem_iff.1 hx)
          rw [heq]
          apply h r' (List.mem_append_left _ hr') r (by simp) m
          have hmap := congrArg (List.take m) hdata
          rw [← List.map_take, ← List.map_take, heq] at hmap
          exact hmap
      rw [← List.take_append_drop m (route (optFunc r) (grown (optionTree optFunc rules))), htake', hdrop,
        List.take_append_drop]
    have hpaths := pathsOf_concat optFunc rules r
    rw [hroute] at hpaths
    unfold Represents
    rw [List.map_append]
    exact hpaths.trans (ih.append_right _)

theorem consistent_of_represents {rules : List O}
    (h : Represents optFunc (optionTree optFunc rules) rules) : Consistent optFunc rules := by
  suffices hpre : ∀ pre, pre <+: rules → Consistent optFunc pre from hpre rules List.prefix_rfl
  intro pre
  induction pre using List.reverseRecOn with
  | nil => exact fun _ r hr => absurd hr (by simp)
  | append_singleton pre r ih =>
    intro hpre
    have hcons := ih ((List.prefix_append _ _).trans hpre)
    have hrep := represents_of_consistent optFunc hcons
    -- the path of the rule is still there at the end
    have hroute : route (optFunc r) (grown (optionTree optFunc pre)) = labels (optFunc r) := by
      have hmem : (route (optFunc r) (grown (optionTree optFunc pre)), r) ∈
          pathsOf (optionTree optFunc rules) := by
        apply pathsOf_subset optFunc hpre
        exact (pathsOf_concat optFunc pre r).mem_iff.2 (by simp)
      obtain ⟨r', -, heq⟩ := List.mem_map.1 (h.mem_iff.1 hmem)
      obtain ⟨hlabels, rfl⟩ := Prod.mk.inj heq
      exact hlabels.symm
    have hold : ∀ r' ∈ pre, ∀ k,
        ((labels (optFunc r')).take k).map (Label.optionData (O := O)) =
          ((labels (optFunc r)).take k).map Label.optionData →
        ((labels (optFunc r')).take k : List (Label D E O)) = (labels (optFunc r)).take k := by
      intro r' hr' k heq
      have hmem : (labels (optFunc r'), r') ∈ pathsOf (grown (optionTree optFunc pre)) := by
        rw [pathsOf_grown]
        exact hrep.mem_iff.2 (List.mem_map.2 ⟨r', hr', rfl⟩)
      rw [← route_of_path (optFunc r) (wfChildren_grown optFunc pre) _ hmem k heq, hroute]
    intro a ha b hb k heq
    rcases List.mem_append.1 ha with ha' | ha'
    · rcases List.mem_append.1 hb with hb' | hb'
      · exact hcons a ha' b hb' k heq
      · rw [List.mem_singleton.1 hb'] at heq ⊢
        exact hold a ha' k heq
    · rw [List.mem_singleton.1 ha'] at heq ⊢
      rcases List.mem_append.1 hb with hb' | hb'
      · exact (hold b hb' k heq.symm).symm
      · rw [List.mem_singleton.1 hb']

/-- **The tree represents exactly its rules**, and `relative_children` counts the relative children of
every node, if and only if options in the same place behind the same option data, with the same option
data, are the same. -/
theorem optionTree_represents_iff (rules : List O) :
    (Represents optFunc (optionTree optFunc rules) rules ∧
      ∀ n, NodeOf (optionTree optFunc rules) n →
        n.relativeChildren = n.children.countP slotRelative) ↔
    Consistent optFunc rules := by
  refine ⟨fun h => consistent_of_represents optFunc h.1,
    fun h => ⟨represents_of_consistent optFunc h, fun n hn => ?_⟩⟩
  refine relativeChildren_eq (fun m hm => (wfChildren_grown optFunc rules).below m ?_) hn
  unfold grown
  split
  · next hempty =>
    rw [List.isEmpty_iff.1 hempty] at hm
    exact absurd hm (by simp)
  · exact hm

/-! ### Options without a context -/

/-- The rule 0 has the option `sameip`, the rule 1 the option `ftpbounce`; the context of both is
`NULL`. -/
def nullOptions : ℕ → List (OptFp ℕ ℕ)
  | 0 => [⟨none, .ipSame, 10, false, false⟩]
  | _ => [⟨none, .ftpbounce, 20, false, false⟩]

/-- The second rule is taken for one with the option `sameip`. -/
theorem nullOptions_shared :
    pathsOf (optionTree nullOptions [0, 1]) =
        [([⟨.ipSame, .context none, some 10⟩], 0), ([⟨.ipSame, .context none, some 10⟩], 1)] ∧
      ¬Represents nullOptions (optionTree nullOptions [0, 1]) [0, 1] := by
  have hpaths : pathsOf (optionTree nullOptions [0, 1]) =
      [([⟨.ipSame, .context none, some 10⟩], 0), ([⟨.ipSame, .context none, some 10⟩], 1)] := by
    decide +kernel
  refine ⟨hpaths, ?_⟩
  unfold Represents
  rw [hpaths]
  decide

end Snort.OptionTree
