import Snort.Sdf.Model

/-!
# The patterns of a tree

* `overlap_append`, `exists_common`: the common part of two patterns;
* `firstUnit`: patterns overlap if and only if they start with the same character or escape sequence;
* `Cut`: a pattern is cut between two characters with their optional marks;
* `matchPattern_append`: a pattern may be matched in two parts if it is cut so.

* `entries`, `allEntries`: the patterns of a tree, with their option data;
* `WF`, `AllWF`: children start in different ways, and a node without option data has at least two of them;
* `allEntries_piiTree`: the tree holds the patterns that were added.
-/

namespace Snort.Sdf

section

variable {p q x y : List UInt8}

/-! ### Overlaps -/

@[simp] theorem overlap_nil_left (q : List UInt8) : overlap [] q = 0 := by rw [overlap]; nofun

@[simp] theorem overlap_nil_right (p : List UInt8) : overlap p [] = 0 := by
  rw [overlap]
  nofun

theorem overlap_cons {c : UInt8} (hc : c ≠ backslash) (p q : List UInt8) :
    overlap (c :: p) (c :: q) = overlap p q + 1 := by
  cases p <;> cases q <;> simp only [overlap, ↓reduceIte, if_neg hc]

theorem overlap_escape (c : UInt8) (p q : List UInt8) :
    overlap (backslash :: c :: p) (backslash :: c :: q) = overlap p q + 2 := by
  simp only [overlap, ↓reduceIte]

theorem overlap_cons_ne {c d : UInt8} (h : c ≠ d) (p q : List UInt8) : overlap (c :: p) (d :: q) = 0 := by
  cases p <;> cases q <;> simp only [overlap, if_neg h]

theorem overlap_escape_ne {c d : UInt8} (h : c ≠ d) (p q : List UInt8) :
    overlap (backslash :: c :: p) (backslash :: d :: q) = 0 := by
  simp only [overlap, ↓reduceIte, if_neg h]

theorem Units.append (hx : Units x) (hp : Units p) : Units (x ++ p) := by
  induction hx with
  | nil => exact hp
  | char hc _ ih => exact .char hc ih
  | escape c _ ih => exact .escape c ih

/-- A common part counts, and then what is behind it. -/
theorem overlap_append (hx : Units x) (p q : List UInt8) :
    overlap (x ++ p) (x ++ q) = x.length + overlap p q := by
  induction hx with
  | nil => rw [List.nil_append, List.nil_append, List.length_nil, Nat.zero_add]
  | char hc _ ih =>
    rw [List.cons_append, List.cons_append, overlap_cons hc, ih, List.length_cons]
    omega
  | escape c _ ih =>
    simp only [List.cons_append]
    rw [overlap_escape, ih, List.length_cons, List.length_cons]
    omega

theorem overlap_append_self (hx : Units x) (p : List UInt8) : overlap (x ++ p) x = x.length := by
  have h := overlap_append hx p []
  rwa [List.append_nil, overlap_nil_right, Nat.add_zero] at h

theorem overlap_self_append (hx : Units x) (p : List UInt8) : overlap x (x ++ p) = x.length := by
  have h := overlap_append hx [] p
  rwa [List.append_nil, overlap_nil_left, Nat.add_zero] at h

/-- Two patterns are a common part, and parts that do not overlap. -/
theorem exists_common (hp : Units p) (hq : Units q) :
    ∃ x p' q', p = x ++ p' ∧ q = x ++ q' ∧ Units x ∧ Units p' ∧ Units q' ∧ overlap p q = x.length ∧
      overlap p' q' = 0 := by
  induction hp generalizing q with
  | nil => exact ⟨[], [], q, rfl, rfl, .nil, .nil, hq, overlap_nil_left q, overlap_nil_left q⟩
  | @char c p hc hp ih =>
    have hnone : overlap (c :: p) q = 0 → ∃ x p' q', c :: p = x ++ p' ∧ q = x ++ q' ∧ Units x ∧ Units p' ∧
        Units q' ∧ overlap (c :: p) q = x.length ∧ overlap p' q' = 0 :=
      fun h => ⟨[], c :: p, q, rfl, rfl, .nil, .char hc hp, hq, h, h⟩
    cases hq with
    | nil => exact hnone (overlap_nil_right _)
    | @char d q hd hq =>
      by_cases hcd : c = d
      · obtain rfl := hcd
        obtain ⟨x, p', q', rfl, rfl, hx, hp', hq', hlen, hover⟩ := ih hq
        exact ⟨c :: x, p', q', rfl, rfl, .char hc hx, hp', hq', by rw [overlap_cons hc, hlen]; rfl, hover⟩
      · exact hnone (overlap_cons_ne hcd _ _)
    | escape d hq => exact hnone (overlap_cons_ne hc _ _)
  | @escape c p hp ih =>
    have hnone : overlap (backslash :: c :: p) q = 0 → ∃ x p' q', backslash :: c :: p = x ++ p' ∧ q = x ++ q' ∧
        Units x ∧ Units p' ∧ Units q' ∧ overlap (backslash :: c :: p) q = x.length ∧ overlap p' q' = 0 :=
      fun h => ⟨[], _, q, rfl, rfl, .nil, .escape c hp, hq, h, h⟩
    cases hq with
    | nil => exact hnone (overlap_nil_right _)
    | char hd hq => exact hnone (overlap_cons_ne (Ne.symm hd) _ _)
    | @escape d q hq =>
      by_cases hcd : c = d
      · obtain rfl := hcd
        obtain ⟨x, p', q', rfl, rfl, hx, hp', hq', hlen, hover⟩ := ih hq
        exact ⟨backslash :: c :: x, p', q', rfl, rfl, .escape c hx, hp', hq',
          by rw [overlap_escape, hlen]; rfl, hover⟩
      · exact hnone (overlap_escape_ne hcd _ _)

/-! ### First characters -/

/-- The first character or escape sequence. -/
def firstUnit : List UInt8 → List UInt8
  | [] => []
  | c :: p => if c = backslash then c :: p.take 1 else [c]

theorem firstUnit_append (hx : Units x) (hne : x ≠ []) (p : List UInt8) : firstUnit (x ++ p) = firstUnit x := by
  cases hx with
  | nil => exact absurd rfl hne
  | char hc _ => simp only [List.cons_append, firstUnit, if_neg hc]
  | escape c _ => simp only [List.cons_append, firstUnit, ↓reduceIte, List.take_succ_cons, List.take_zero]

/-- Patterns overlap if they start in the same way. -/
theorem overlap_eq_zero_iff (hp : Units p) (hq : Units q) (hpne : p ≠ []) (hqne : q ≠ []) :
    overlap p q = 0 ↔ firstUnit p ≠ firstUnit q := by
  cases hp with
  | nil => exact absurd rfl hpne
  | @char c p hc hp =>
    cases hq with
    | nil => exact absurd rfl hqne
    | @char d q hd hq =>
      by_cases hcd : c = d
      · obtain rfl := hcd
        simp [overlap_cons hc, firstUnit, hc]
      · simp [overlap_cons_ne hcd, firstUnit, hc, hd, hcd]
    | escape d hq => simp [overlap_cons_ne hc, firstUnit, hc]
  | @escape c p hp =>
    cases hq with
    | nil => exact absurd rfl hqne
    | @char d q hd hq => simp [overlap_cons_ne (Ne.symm hd), firstUnit, hd]
    | @escape d q hq =>
      by_cases hcd : c = d
      · obtain rfl := hcd
        simp [overlap_escape, firstUnit]
      · simp [overlap_escape_ne hcd, firstUnit, hcd]

/-! ### Matching a pattern in parts -/

/-- A character or an escape sequence, with the bytes that it matches. -/
inductive IsUnit : List UInt8 → (UInt8 → Bool) → Prop
  | char {c : UInt8} : c ≠ backslash → IsUnit [c] (fun b => b = c)
  | escape (c : UInt8) : IsUnit [backslash, c] (escapeMatches c)

/-- The second part starts with a character, an escape sequence, or not at all: the optional mark at its start, if
there is one, is not that of the last character of the first part. -/
inductive Cut : List UInt8 → List UInt8 → Prop
  | nil (y : List UInt8) : Cut [] y
  | required {u x y : List UInt8} {m : UInt8 → Bool} : IsUnit u m → (x ++ y).head? ≠ some optionalMark → Cut x y →
    Cut (u ++ x) y
  | optional {u x y : List UInt8} {m : UInt8 → Bool} : IsUnit u m → Cut x y → Cut (u ++ optionalMark :: x) y

variable {u v : List UInt8} {m m' : UInt8 → Bool}

@[simp] theorem matchPattern_nil_left (buf : List UInt8) : matchPattern [] buf = some buf := by rw [matchPattern]

@[simp] theorem matchPattern_nil_right (p : List UInt8) : matchPattern p [] = some [] := by
  cases p <;> rw [matchPattern]

theorem matchPattern_required (hu : IsUnit u m) (hp : p.head? ≠ some optionalMark) (b : UInt8) (buf : List UInt8) :
    matchPattern (u ++ p) (b :: buf) = if m b then matchPattern p buf else none := by
  cases hu with
  | @char c hc =>
    have hunit : matchUnit c p b = (decide (b = c), p) := by
      unfold matchUnit
      rw [if_neg hc]
    rw [List.singleton_append, matchPattern, hunit, if_neg hp]
  | escape c =>
    have hunit : matchUnit backslash (c :: p) b = (escapeMatches c b, p) := by rw [matchUnit, if_pos rfl]
    rw [List.cons_append, List.singleton_append, matchPattern, hunit, if_neg hp]

theorem matchPattern_optional (hu : IsUnit u m) (p : List UInt8) (b : UInt8) (buf : List UInt8) :
    matchPattern (u ++ optionalMark :: p) (b :: buf) = matchPattern p (if m b then buf else b :: buf) := by
  cases hu with
  | @char c hc =>
    have hunit : matchUnit c (optionalMark :: p) b = (decide (b = c), optionalMark :: p) := by
      unfold matchUnit
      rw [if_neg hc]
    rw [List.singleton_append, matchPattern, hunit, if_pos (List.head?_cons), List.tail_cons]
  | escape c =>
    have hunit : matchUnit backslash (c :: optionalMark :: p) b = (escapeMatches c b, optionalMark :: p) := by
      rw [matchUnit, if_pos rfl]
    rw [List.cons_append, List.singleton_append, matchPattern, hunit, if_pos (List.head?_cons), List.tail_cons]

theorem head?_append_ne {c : UInt8} (h : (x ++ y).head? ≠ some c) : x.head? ≠ some c := by
  cases x with
  | nil => exact (Option.some_ne_none _).symm
  | cons d x => exact h

/-- A pattern that is cut is matched in two parts. -/
theorem matchPattern_append (h : Cut x y) (buf : List UInt8) :
    matchPattern (x ++ y) buf = (matchPattern x buf).bind (matchPattern y) := by
  induction h generalizing buf with
  | nil y => rw [List.nil_append, matchPattern_nil_left, Option.bind_some]
  | @required u x y m hu hhead _ ih =>
    cases buf with
    | nil => simp only [matchPattern_nil_right, Option.bind_some]
    | cons b buf =>
      rw [List.append_assoc, matchPattern_required hu hhead, matchPattern_required hu (head?_append_ne hhead)]
      split_ifs with hb
      · exact ih buf
      · rfl
  | @optional u x y m hu _ ih =>
    cases buf with
    | nil => simp only [matchPattern_nil_right, Option.bind_some]
    | cons b buf =>
      rw [List.append_assoc, List.cons_append, matchPattern_optional hu, matchPattern_optional hu]
      exact ih _

/-- The first character or escape sequence is determined. -/
theorem IsUnit.eq (hu : IsUnit u m) (hv : IsUnit v m') (h : u ++ x = v ++ y) : u = v ∧ x = y := by
  cases hu with
  | char hc =>
    cases hv with
    | char hd =>
      obtain ⟨rfl, rfl⟩ := List.cons.inj h
      exact ⟨rfl, rfl⟩
    | escape d => exact absurd (List.cons.inj h).1 hc
  | escape c =>
    cases hv with
    | char hd => exact absurd (List.cons.inj h).1.symm hd
    | escape d =>
      obtain ⟨-, h⟩ := List.cons.inj h
      obtain ⟨rfl, rfl⟩ := List.cons.inj h
      exact ⟨rfl, rfl⟩

theorem IsUnit.ne_nil (hu : IsUnit u m) : u ≠ [] := by
  cases hu <;> exact List.cons_ne_nil _ _

theorem Cut.of_required (hu : IsUnit u m) (hhead : (x ++ y).head? ≠ some optionalMark) (h : Cut (u ++ x) y) :
    Cut x y := by
  generalize hw : u ++ x = w at h
  cases h with
  | nil y => exact absurd (List.append_eq_nil_iff.1 hw).1 hu.ne_nil
  | required hv _ hcut =>
    obtain ⟨-, rfl⟩ := hu.eq hv hw
    exact hcut
  | optional hv hcut =>
    obtain ⟨-, rfl⟩ := hu.eq hv hw
    exact absurd rfl hhead

theorem Cut.of_optional (hu : IsUnit u m) (h : Cut (u ++ optionalMark :: x) y) : Cut x y := by
  generalize hw : u ++ optionalMark :: x = w at h
  cases h with
  | nil y => exact absurd (List.append_eq_nil_iff.1 hw).1 hu.ne_nil
  | required hv hhead _ =>
    obtain ⟨-, rfl⟩ := hu.eq hv hw
    exact absurd rfl hhead
  | optional hv hcut =>
    obtain ⟨-, hx⟩ := hu.eq hv hw
    obtain rfl := (List.cons.inj hx).2
    exact hcut

/-- A later cut is one of the part behind an earlier one. -/
theorem Cut.of_append {z : List UInt8} (h : Cut x (y ++ z)) (h' : Cut (x ++ y) z) : Cut y z := by
  generalize hw : y ++ z = w at h
  induction h with
  | nil w => exact h'
  | @required u x w m hu hhead _ ih =>
    obtain rfl := hw
    rw [List.append_assoc] at h'
    rw [← List.append_assoc] at hhead
    exact ih (h'.of_required hu hhead) rfl
  | @optional u x w m hu _ ih =>
    obtain rfl := hw
    rw [List.append_assoc, List.cons_append] at h'
    exact ih (h'.of_optional hu) rfl

/-- A cut depends on the first character behind it only. -/
theorem Cut.congr (h : Cut x y) {y' : List UInt8} (hy : y'.head? = y.head?) : Cut x y' := by
  induction h with
  | nil y => exact .nil y'
  | @required u x y m hu hhead _ ih =>
    refine .required hu ?_ (ih hy)
    rw [List.head?_append] at hhead ⊢
    rwa [hy]
  | optional hu _ ih => exact .optional hu (ih hy)

end

/-! ## The patterns of a tree -/

/-! ### The patterns -/

mutual

/-- The patterns at and below a node. -/
def entries : SdfTreeNode → List (List UInt8 × SDFOptionData)
  | .node pattern optionData children =>
    optionData.map (fun d => (pattern, d)) ++ (allEntries children).map fun e => (pattern ++ e.1, e.2)

/-- The patterns of some nodes. -/
def allEntries : List SdfTreeNode → List (List UInt8 × SDFOptionData)
  | [] => []
  | child :: children => entries child ++ allEntries children

end

/-- How the patterns of some nodes start. -/
def firstUnits (nodes : List SdfTreeNode) : List (List UInt8) := nodes.map fun n => firstUnit n.pattern

mutual

/-- A node is there for its option data, or for more than one child. -/
def WF : SdfTreeNode → Prop
  | .node pattern optionData children =>
    pattern ≠ [] ∧ Units pattern ∧ (optionData = [] → 2 ≤ children.length) ∧ AllWF children

/-- Nodes with the same parent start in different ways. -/
def AllWF : List SdfTreeNode → Prop
  | [] => True
  | child :: children => WF child ∧ firstUnit child.pattern ∉ firstUnits children ∧ AllWF children

end

variable {n n' : SdfTreeNode} {nodes nodes' children : List SdfTreeNode} {p q : List UInt8} {data : SDFOptionData}
  {datas : List SDFOptionData} {e : List UInt8 × SDFOptionData}

@[simp] theorem entries_node (p : List UInt8) (datas : List SDFOptionData) (children : List SdfTreeNode) :
    entries (.node p datas children) =
      datas.map (fun d => (p, d)) ++ (allEntries children).map fun e => (p ++ e.1, e.2) := by rw [entries]

@[simp] theorem allEntries_nil : allEntries [] = [] := by rw [allEntries]

@[simp] theorem allEntries_cons (n : SdfTreeNode) (nodes : List SdfTreeNode) :
    allEntries (n :: nodes) = entries n ++ allEntries nodes := by rw [allEntries]

theorem allEntries_append (nodes nodes' : List SdfTreeNode) :
    allEntries (nodes ++ nodes') = allEntries nodes ++ allEntries nodes' := by
  induction nodes with
  | nil => rw [List.nil_append, allEntries_nil, List.nil_append]
  | cons n nodes ih => rw [List.cons_append, allEntries_cons, allEntries_cons, ih, List.append_assoc]

@[simp] theorem firstUnits_cons (n : SdfTreeNode) (nodes : List SdfTreeNode) :
    firstUnits (n :: nodes) = firstUnit n.pattern :: firstUnits nodes := rfl

theorem firstUnits_append (nodes nodes' : List SdfTreeNode) :
    firstUnits (nodes ++ nodes') = firstUnits nodes ++ firstUnits nodes' := List.map_append

theorem wf_node : WF (.node p datas children) ↔
    p ≠ [] ∧ Units p ∧ (datas = [] → 2 ≤ children.length) ∧ AllWF children := by rw [WF]

@[simp] theorem allWF_nil : AllWF [] ↔ True := by rw [AllWF]

theorem allWF_cons : AllWF (n :: nodes) ↔ WF n ∧ firstUnit n.pattern ∉ firstUnits nodes ∧ AllWF nodes := by
  rw [AllWF]

theorem WF.pattern (h : WF n) : n.pattern ≠ [] ∧ Units n.pattern := by
  cases n with
  | node p datas children => exact ⟨(wf_node.1 h).1, (wf_node.1 h).2.1⟩

/-- A new leaf. -/
theorem wf_leaf (hp : p ≠ []) (hunits : Units p) : WF (.node p [data] []) :=
  wf_node.2 ⟨hp, hunits, fun h => absurd h (List.cons_ne_nil _ _), allWF_nil.2 trivial⟩

theorem allWF_append_leaf (h : AllWF nodes) (hp : p ≠ []) (hunits : Units p) (hnew : firstUnit p ∉ firstUnits nodes) :
    AllWF (nodes ++ [.node p [data] []]) := by
  induction nodes with
  | nil => exact allWF_cons.2 ⟨wf_leaf hp hunits, List.not_mem_nil, allWF_nil.2 trivial⟩
  | cons n nodes ih =>
    obtain ⟨hn, hfirst, hnodes⟩ := allWF_cons.1 h
    rw [firstUnits_cons, List.mem_cons, not_or] at hnew
    rw [List.cons_append]
    refine allWF_cons.2 ⟨hn, ?_, ih hnodes hnew.2⟩
    rw [firstUnits_append, List.mem_append, not_or]
    exact ⟨hfirst, fun h => hnew.1 (List.mem_singleton.1 h).symm⟩

/-- Every pattern below a node starts with that of the node. -/
theorem exists_of_mem_entries (he : e ∈ entries n) : ∃ q, e.1 = n.pattern ++ q := by
  cases n with
  | node p datas children =>
    rw [entries_node] at he
    rcases List.mem_append.1 he with he | he
    · obtain ⟨d, -, rfl⟩ := List.mem_map.1 he
      exact ⟨[], (List.append_nil p).symm⟩
    · obtain ⟨e', -, rfl⟩ := List.mem_map.1 he
      exact ⟨e'.1, rfl⟩

/-! ### A piece of a pattern -/

/-- The pattern is new for the rule, and the node that holds it has room for the option data. -/
structure Fresh (es : List (List UInt8 × SDFOptionData)) (q : List UInt8) (data : SDFOptionData) : Prop where
  rule : ∀ e ∈ es, ¬(e.2.sid = data.sid ∧ e.2.gid = data.gid)
  room : es.countP (fun e => e.1 = q) + 1 < 2 ^ 16

theorem Fresh.below (h : Fresh (entries (.node p datas children)) (p ++ q) data) :
    Fresh (allEntries children) q data := by
  obtain ⟨hrule, hroom⟩ := h
  rw [entries_node] at hrule hroom
  constructor
  · intro e he
    exact hrule (p ++ e.1, e.2) (List.mem_append_right _ (List.mem_map_of_mem he))
  · rw [List.countP_append, List.countP_map, List.countP_map] at hroom
    have hcount : (allEntries children).countP ((fun e => decide (e.1 = p ++ q)) ∘ fun e => (p ++ e.1, e.2)) =
        (allEntries children).countP fun e => decide (e.1 = q) := by
      congr 1
      funext e
      simp
    omega

theorem Fresh.of_append {es es' : List (List UInt8 × SDFOptionData)} (h : Fresh (es ++ es') q data) :
    Fresh es q data ∧ Fresh es' q data := by
  obtain ⟨hrule, hroom⟩ := h
  rw [List.countP_append] at hroom
  exact ⟨⟨fun e he => hrule e (List.mem_append_left _ he), by omega⟩,
    ⟨fun e he => hrule e (List.mem_append_right _ he), by omega⟩⟩

/-- Option data of a new rule goes behind the others. -/
theorem addOptionData_fresh (h : Fresh (entries (.node p datas children)) p data) :
    addOptionData datas data = datas ++ [data] := by
  obtain ⟨hrule, hroom⟩ := h
  rw [entries_node] at hrule hroom
  have hnone : ¬∃ d ∈ datas, d.sid = data.sid ∧ d.gid = data.gid := by
    rintro ⟨d, hd, hsame⟩
    exact hrule (p, d) (List.mem_append_left _ (List.mem_map_of_mem hd)) hsame
  have hcount : (datas.map fun d => (p, d)).countP (fun e => decide (e.1 = p)) = datas.length := by
    rw [List.countP_map]
    exact List.countP_eq_length.2 fun d _ => decide_eq_true rfl
  rw [List.countP_append, hcount] at hroom
  unfold addOptionData
  rw [if_neg hnone, if_neg (by omega)]

/-- A pattern that starts in another way is not taken. -/
theorem addPiiPiece_none (h : WF n) (hq : Units q) (hqne : q ≠ []) (hfirst : firstUnit n.pattern ≠ firstUnit q) :
    addPiiPiece data n q = (0, n) := by
  cases n with
  | node p datas children =>
    obtain ⟨hpne, hp, -⟩ := wf_node.1 h
    have hzero : overlap p q = 0 := (overlap_eq_zero_iff hp hq hpne hqne).2 hfirst
    have hlen : 0 ≠ p.length := (List.length_pos_iff.2 hpne).ne
    rw [addPiiPiece, if_neg hqne]
    simp only [hzero, List.drop_zero, hqne, hlen, false_and, ↓reduceIte, Nat.zero_mod, gt_iff_lt, lt_self_iff_false]

theorem addPiiChildren_none (h : AllWF nodes) (hq : Units q) (hqne : q ≠ []) (hfirst : firstUnit q ∉ firstUnits nodes) :
    addPiiChildren data nodes q = none := by
  induction nodes with
  | nil => rw [addPiiChildren]
  | cons n nodes ih =>
    obtain ⟨hn, -, hnodes⟩ := allWF_cons.1 h
    rw [firstUnits_cons, List.mem_cons, not_or] at hfirst
    rw [addPiiChildren, addPiiPiece_none hn hq hqne (Ne.symm hfirst.1), ih hnodes hfirst.2]
    rfl

/-- The cases of `AddPiiPiece` for patterns with a common part. -/
theorem addPiiPiece_append {x p' q' : List UInt8} (hx : x ≠ []) (hshort : x.length < 2 ^ 16)
    (hover : overlap (x ++ p') (x ++ q') = x.length) :
    addPiiPiece data (.node (x ++ p') datas children) (x ++ q') =
      if p' = [] ∧ q' = [] then (1, .node x (addOptionData datas data) children)
      else if p' = [] then
        (1, .node x datas ((addPiiChildren data children q').getD (addChild children data q')))
      else if q' = [] then (1, .node x [data] [.node p' datas children])
      else (1, .node x [] [.node p' datas children, .node q' [data] []]) := by
  have hpos := List.length_pos_iff.2 hx
  rw [addPiiPiece, if_neg (List.append_ne_nil_of_left_ne_nil hx _)]
  simp only [hover, Nat.mod_eq_of_lt hshort, List.take_left, List.drop_left, List.length_append]
  by_cases hp : p' = []
  · obtain rfl := hp
    simp only [List.length_nil, Nat.add_zero, true_and, List.append_nil, ↓reduceIte]
    split_ifs
    · rfl
    · cases addPiiChildren data children q' <;> rfl
  · have hne : x.length ≠ x.length + p'.length := by
      have := List.length_pos_iff.2 hp
      omega
    simp only [hp, hne, false_and, ↓reduceIte, gt_iff_lt, hpos]
    split_ifs <;> rfl

mutual

/-- A node takes a pattern that starts like its own. -/
theorem addPiiPiece_spec (data : SDFOptionData) (n : SdfTreeNode) (q : List UInt8) (h : WF n) (hq : Units q)
    (hqne : q ≠ []) (hshort : q.length < 2 ^ 16) (hfresh : Fresh (entries n) q data)
    (hfirst : firstUnit n.pattern = firstUnit q) :
    ∃ n', addPiiPiece data n q = (1, n') ∧ WF n' ∧ firstUnit n'.pattern = firstUnit n.pattern ∧
      (entries n').Perm ((q, data) :: entries n) :=
  match n with
  | .node p datas children => by
    obtain ⟨hpne, hp, hdatas, hchildren⟩ := wf_node.1 h
    have hover : overlap p q ≠ 0 := fun h0 => (overlap_eq_zero_iff hp hq hpne hqne).1 h0 hfirst
    obtain ⟨x, p', q', rfl, rfl, hx, hp', hq', hlen, hzero⟩ := exists_common hp hq
    rw [hlen] at hover
    have hxne : x ≠ [] := fun h0 => hover (List.length_eq_zero_iff.2 h0)
    rw [List.length_append] at hshort
    have hunit : ∀ y, firstUnit (x ++ y) = firstUnit x := firstUnit_append hx hxne
    rw [addPiiPiece_append hxne (by omega) hlen]
    by_cases hpnil : p' = []
    · obtain rfl := hpnil
      rw [List.append_nil] at hfresh
      by_cases hqnil : q' = []
      · obtain rfl := hqnil
        rw [List.append_nil] at hfresh
        rw [if_pos ⟨rfl, rfl⟩, addOptionData_fresh hfresh]
        refine ⟨_, rfl, wf_node.2 ⟨hxne, hx, fun h => absurd h (by simp), hchildren⟩, (hunit []).symm, ?_⟩
        simp only [entries_node, List.append_nil, List.map_append, List.map_cons, List.map_nil, List.append_assoc]
        exact List.perm_middle
      · rw [if_neg fun h => hqnil h.2, if_pos rfl]
        have hbelow := hfresh.below
        by_cases hmem : firstUnit q' ∈ firstUnits children
        · obtain ⟨children', hadd, hchildren', hunits, hperm⟩ :=
            addPiiChildren_spec data children q' hchildren hq' hqnil (by omega) hbelow hmem
          rw [hadd, Option.getD_some]
          have hcount : children'.length = children.length := by simpa [firstUnits] using congrArg List.length hunits
          refine ⟨_, rfl, wf_node.2 ⟨hxne, hx, by rwa [hcount], hchildren'⟩, (hunit []).symm, ?_⟩
          rw [List.append_nil, entries_node, entries_node]
          exact ((hperm.map _).append_left _).trans List.perm_middle
        · rw [addPiiChildren_none hchildren hq' hqnil hmem, Option.getD_none, addChild]
          refine ⟨_, rfl, wf_node.2 ⟨hxne, hx, fun h => ?_, allWF_append_leaf hchildren hqnil hq' hmem⟩,
            (hunit []).symm, ?_⟩
          · rw [List.length_append]
            exact le_add_right (hdatas h)
          · simp only [List.append_nil, entries_node, allEntries_append, allEntries_cons, allEntries_nil,
              List.map_cons, List.map_nil, List.map_append]
            rw [← List.append_assoc]
            exact List.perm_append_comm
    · rw [if_neg fun h => hpnil h.1, if_neg hpnil]
      have hlower : WF (.node p' datas children) := wf_node.2 ⟨hpnil, hp', hdatas, hchildren⟩
      by_cases hqnil : q' = []
      · obtain rfl := hqnil
        rw [if_pos rfl]
        refine ⟨_, rfl, wf_node.2 ⟨hxne, hx, fun h => absurd h (List.cons_ne_nil _ _),
          allWF_cons.2 ⟨hlower, List.not_mem_nil, allWF_nil.2 trivial⟩⟩, (hunit p').symm, ?_⟩
        simp only [entries_node, allEntries_cons, allEntries_nil, List.append_nil, List.map_cons, List.map_nil,
          List.map_append, List.map_map, List.singleton_append, List.append_assoc, Function.comp_def]
        exact List.Perm.refl _
      · rw [if_neg hqnil]
        have hnew : firstUnit p' ≠ firstUnit q' := (overlap_eq_zero_iff hp' hq' hpnil hqnil).1 hzero
        refine ⟨_, rfl, wf_node.2 ⟨hxne, hx, fun _ => le_rfl, @allWF_append_leaf [.node p' datas children] q' data
          (allWF_cons.2 ⟨hlower, List.not_mem_nil, allWF_nil.2 trivial⟩) hqnil hq' ?_⟩, (hunit p').symm, ?_⟩
        · intro hmem
          exact hnew (List.mem_singleton.1 hmem).symm
        · simp only [entries_node, allEntries_cons, allEntries_nil, List.append_nil, List.map_cons, List.map_nil,
            List.map_append, List.map_map, List.nil_append, List.append_assoc, Function.comp_def]
          rw [← List.append_assoc]
          exact List.perm_append_comm

/-- One of some nodes takes the pattern. -/
theorem addPiiChildren_spec (data : SDFOptionData) (nodes : List SdfTreeNode) (q : List UInt8) (h : AllWF nodes)
    (hq : Units q) (hqne : q ≠ []) (hshort : q.length < 2 ^ 16) (hfresh : Fresh (allEntries nodes) q data)
    (hfirst : firstUnit q ∈ firstUnits nodes) :
    ∃ nodes', addPiiChildren data nodes q = some nodes' ∧ AllWF nodes' ∧ firstUnits nodes' = firstUnits nodes ∧
      (allEntries nodes').Perm ((q, data) :: allEntries nodes) :=
  match nodes with
  | [] => absurd hfirst List.not_mem_nil
  | n :: nodes => by
    obtain ⟨hn, hnew, hnodes⟩ := allWF_cons.1 h
    rw [allEntries_cons] at hfresh
    rw [addPiiChildren]
    by_cases heq : firstUnit n.pattern = firstUnit q
    · obtain ⟨n', hadd, hn', hunit, hperm⟩ := addPiiPiece_spec data n q hn hq hqne hshort hfresh.of_append.1 heq
      rw [hadd, if_pos rfl]
      refine ⟨n' :: nodes, rfl, allWF_cons.2 ⟨hn', by rwa [hunit], hnodes⟩, by rw [firstUnits_cons, hunit]; rfl, ?_⟩
      rw [allEntries_cons, allEntries_cons]
      exact hperm.append_right _
    · rw [firstUnits_cons, List.mem_cons] at hfirst
      obtain ⟨nodes', hadd, hnodes', hunits, hperm⟩ := addPiiChildren_spec data nodes q hnodes hq hqne hshort
        hfresh.of_append.2 (hfirst.resolve_left (Ne.symm heq))
      rw [addPiiPiece_none hn hq hqne heq, hadd, if_neg (show ¬(0 : ℤ) = 1 by decide)]
      refine ⟨n :: nodes', rfl, allWF_cons.2 ⟨hn, by rwa [hunits], hnodes'⟩,
        by rw [firstUnits_cons, firstUnits_cons, hunits], ?_⟩
      rw [allEntries_cons, allEntries_cons]
      exact (hperm.append_left _).trans List.perm_middle

end

/-! ### The tree of some patterns -/

theorem addPiiPiece_status (data : SDFOptionData) (n : SdfTreeNode) (hqne : q ≠ []) :
    (addPiiPiece data n q).1 = 0 ∨ (addPiiPiece data n q).1 = 1 := by
  cases n with
  | node p datas children =>
    rw [addPiiPiece, if_neg hqne]
    simp only
    split_ifs
    · exact .inr rfl
    · cases addPiiChildren data children (q.drop (overlap p q)) <;> exact .inr rfl
    · exact .inr rfl
    · exact .inr rfl
    · exact .inl rfl

/-- The loop over the children of the root is that over the children of a node. -/
theorem addPiiRoot_eq (data : SDFOptionData) (nodes : List SdfTreeNode) :
    addPiiRoot data nodes = addPiiChildren data nodes data.pii := by
  induction nodes with
  | nil => rw [addPiiRoot, addPiiChildren]
  | cons n nodes ih =>
    rw [addPiiRoot, addPiiChildren, ih]
    rcases addPiiPiece_status data n data.pos with h | h
    · rw [h, if_neg (by decide), if_neg (by decide)]
    · rw [h, if_pos (by decide), if_pos rfl]

theorem addPii_spec (h : AllWF nodes) (hfresh : Fresh (allEntries nodes) data.pii data) :
    AllWF (addPii nodes data) ∧ (allEntries (addPii nodes data)).Perm ((data.pii, data) :: allEntries nodes) := by
  unfold addPii
  rw [addPiiRoot_eq]
  by_cases hmem : firstUnit data.pii ∈ firstUnits nodes
  · obtain ⟨nodes', hadd, hnodes', -, hperm⟩ :=
      addPiiChildren_spec data nodes data.pii h data.units data.pos data.short hfresh hmem
    rw [hadd]
    exact ⟨hnodes', hperm⟩
  · rw [addPiiChildren_none h data.units data.pos hmem, Option.getD_none, addChild]
    refine ⟨allWF_append_leaf h data.pos data.units hmem, ?_⟩
    simp only [allEntries_append, allEntries_cons, allEntries_nil, entries_node, List.map_cons, List.map_nil,
      List.append_nil]
    exact List.perm_append_comm

/-- The patterns are of different rules, and no node has so many of them that its 16-bit count is over. -/
structure Rules (datas : List SDFOptionData) : Prop where
  distinct : datas.Pairwise fun d d' => d.sid ≠ d'.sid
  room : ∀ p, datas.countP (fun d => d.pii = p) < 2 ^ 16

/-- **The tree holds its patterns**: each with the option data of its rules. -/
theorem allEntries_piiTree (h : Rules datas) :
    AllWF (piiTree datas) ∧ (allEntries (piiTree datas)).Perm (datas.map fun d => (d.pii, d)) := by
  induction datas using List.reverseRecOn with
  | nil => exact ⟨allWF_nil.2 trivial, by rw [piiTree, List.foldl_nil, allEntries_nil]; exact List.Perm.refl _⟩
  | append_singleton datas d ih =>
    obtain ⟨hdistinct, hroom⟩ := h
    rw [List.pairwise_append] at hdistinct
    obtain ⟨hwf, hperm⟩ := ih ⟨hdistinct.1, fun p => by
      have := hroom p
      rw [List.countP_append] at this
      omega⟩
    have hfresh : Fresh (allEntries (piiTree datas)) d.pii d := by
      constructor
      · intro e he hsame
        obtain ⟨d', hd', rfl⟩ := List.mem_map.1 (hperm.subset he)
        exact hdistinct.2.2 d' hd' d (List.mem_singleton_self d) hsame.1
      · have hcount := hroom d.pii
        rw [List.countP_append, List.countP_singleton, if_pos (decide_eq_true rfl)] at hcount
        rw [hperm.countP_eq, List.countP_map]
        exact hcount
    obtain ⟨hwf', hperm'⟩ := addPii_spec hwf hfresh
    have htree : piiTree (datas ++ [d]) = addPii (piiTree datas) d := List.foldl_concat ..
    rw [htree, List.map_append]
    exact ⟨hwf', hperm'.trans ((hperm.cons _).trans (List.perm_append_singleton _ _).symm)⟩

end Snort.Sdf
