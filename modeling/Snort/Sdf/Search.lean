import Snort.Sdf.Tree

/-!
# Searching the tree

* `Found`: a pattern matches, and the buffer is not used up in what it shares with another pattern;
* `found_below`: what is found below a node is found behind its own pattern;
* `findPii_spec`: the search finds a pattern if there is one.

* `Agrees`: a match in the tree is one of a pattern alone;
* `agrees_iff`: patterns whose optional marks stay with their characters agree with their tree if and only if the
  buffer is not used up in a common part of the only patterns that match.
-/

namespace Snort.Sdf

section

/-- A pattern matches a buffer, and behind each part that it has in common with another of the patterns, something
is left of the buffer. -/
def Found (es : List (List UInt8 × SDFOptionData)) (buf : List UInt8) (e : List UInt8 × SDFOptionData) : Prop :=
  buf ≠ [] ∧ matchPattern e.1 buf ≠ none ∧
    ∀ e' ∈ es, 0 < overlap e.1 e'.1 → overlap e.1 e'.1 < e.1.length →
      matchPattern (e.1.take (overlap e.1 e'.1)) buf ≠ some []

/-- Patterns are cut where their common parts end. -/
def CutAll (es : List (List UInt8 × SDFOptionData)) : Prop :=
  ∀ e ∈ es, ∀ e' ∈ es, Cut (e.1.take (overlap e.1 e'.1)) (e.1.drop (overlap e.1 e'.1))

variable {n : SdfTreeNode} {nodes children : List SdfTreeNode} {p q buf : List UInt8} {d data : SDFOptionData}
  {datas : List SDFOptionData} {e : List UInt8 × SDFOptionData}

/-! ### The patterns below a node -/

mutual

theorem units_of_mem_entries (n : SdfTreeNode) (h : WF n) : ∀ e ∈ entries n, e.1 ≠ [] ∧ Units e.1 :=
  match n with
  | .node p datas children => by
    obtain ⟨hpne, hp, -, hchildren⟩ := wf_node.1 h
    intro e he
    rw [entries_node] at he
    rcases List.mem_append.1 he with he | he
    · obtain ⟨d, -, rfl⟩ := List.mem_map.1 he
      exact ⟨hpne, hp⟩
    · obtain ⟨e', he', rfl⟩ := List.mem_map.1 he
      exact ⟨List.append_ne_nil_of_left_ne_nil hpne _,
        hp.append (units_of_mem_allEntries children hchildren e' he').2⟩

theorem units_of_mem_allEntries (nodes : List SdfTreeNode) (h : AllWF nodes) :
    ∀ e ∈ allEntries nodes, e.1 ≠ [] ∧ Units e.1 :=
  match nodes with
  | [] => fun e he => absurd (allEntries_nil ▸ he) List.not_mem_nil
  | n :: nodes => by
    obtain ⟨hn, -, hnodes⟩ := allWF_cons.1 h
    intro e he
    rw [allEntries_cons] at he
    rcases List.mem_append.1 he with he | he
    · exact units_of_mem_entries n hn e he
    · exact units_of_mem_allEntries nodes hnodes e he

end

/-- A node has patterns: its own, or those of its children. -/
theorem exists_mem_entries (n : SdfTreeNode) (h : WF n) : ∃ e, e ∈ entries n :=
  match n with
  | .node p datas [] => by
    obtain ⟨-, -, hdatas, -⟩ := wf_node.1 h
    cases datas with
    | nil => exact absurd (hdatas rfl) (by simp)
    | cons d datas =>
      rw [entries_node]
      exact ⟨(p, d), List.mem_append_left _ (List.mem_map_of_mem List.mem_cons_self)⟩
  | .node p datas (child :: children) => by
    obtain ⟨e, he⟩ := exists_mem_entries child (allWF_cons.1 (wf_node.1 h).2.2.2).1
    rw [entries_node, allEntries_cons]
    exact ⟨(p ++ e.1, e.2), List.mem_append_right _ (List.mem_map_of_mem (List.mem_append_left _ he))⟩

/-- Patterns below different nodes with the same parent have nothing in common. -/
theorem overlap_of_mem {e' : List UInt8 × SDFOptionData} (h : AllWF (n :: nodes)) (he : e ∈ entries n)
    (he' : e' ∈ allEntries nodes) : overlap e.1 e'.1 = 0 ∧ overlap e'.1 e.1 = 0 := by
  obtain ⟨hn, hnew, hnodes⟩ := allWF_cons.1 h
  obtain ⟨hene, heunits⟩ := units_of_mem_entries n hn e he
  obtain ⟨hene', heunits'⟩ := units_of_mem_allEntries nodes hnodes e' he'
  have hfirst : firstUnit e.1 = firstUnit n.pattern := by
    obtain ⟨q, hq⟩ := exists_of_mem_entries he
    rw [hq, firstUnit_append hn.pattern.2 hn.pattern.1]
  have hfirst' : firstUnit e'.1 ∈ firstUnits nodes := by
    clear hnew h he
    induction nodes with
    | nil => exact absurd (allEntries_nil ▸ he') List.not_mem_nil
    | cons m nodes ih =>
      obtain ⟨hm, -, hnodes⟩ := allWF_cons.1 hnodes
      rw [allEntries_cons] at he'
      rw [firstUnits_cons, List.mem_cons]
      rcases List.mem_append.1 he' with he' | he'
      · obtain ⟨q, hq⟩ := exists_of_mem_entries he'
        exact .inl (by rw [hq, firstUnit_append hm.pattern.2 hm.pattern.1])
      · exact .inr (ih he' hnodes)
  have hne : firstUnit e.1 ≠ firstUnit e'.1 := fun heq => hnew (by rw [← hfirst, heq]; exact hfirst')
  exact ⟨(overlap_eq_zero_iff heunits heunits' hene hene').2 hne,
    (overlap_eq_zero_iff heunits' heunits hene' hene).2 (Ne.symm hne)⟩

/-- A pattern below a node shares just the pattern of the node with another one. -/
theorem exists_shared (h : WF (.node p datas children)) (he : e ∈ allEntries children) :
    ∃ e' ∈ entries (.node p datas children), overlap (p ++ e.1) e'.1 = p.length := by
  obtain ⟨-, hp, hdatas, hchildren⟩ := wf_node.1 h
  rw [entries_node]
  cases datas with
  | cons d datas =>
    exact ⟨(p, d), List.mem_append_left _ (List.mem_map_of_mem List.mem_cons_self), overlap_append_self hp _⟩
  | nil =>
    obtain ⟨e', he', hzero⟩ : ∃ e' ∈ allEntries children, overlap e.1 e'.1 = 0 := by
      cases children with
      | nil => exact absurd (allEntries_nil ▸ he) List.not_mem_nil
      | cons child children =>
        rw [allEntries_cons] at he ⊢
        obtain ⟨hchild, -, hrest⟩ := allWF_cons.1 hchildren
        rcases List.mem_append.1 he with hin | hin
        · cases children with
          | nil => exact absurd (hdatas rfl) (by simp)
          | cons child' children =>
            obtain ⟨e', he'⟩ := exists_mem_entries child' (allWF_cons.1 hrest).1
            have hmem : e' ∈ allEntries (child' :: children) := by
              rw [allEntries_cons]
              exact List.mem_append_left _ he'
            exact ⟨e', List.mem_append_right _ hmem, (overlap_of_mem hchildren hin hmem).1⟩
        · obtain ⟨e', he'⟩ := exists_mem_entries child hchild
          exact ⟨e', List.mem_append_left _ he', (overlap_of_mem hchildren he' hin).2⟩
    refine ⟨(p ++ e'.1, e'.2), List.mem_append_right _ (List.mem_map_of_mem he'), ?_⟩
    rw [overlap_append hp, hzero, Nat.add_zero]

/-! ### What is found below a node -/

theorem found_here (hp : Units p) :
    Found (entries (.node p datas children)) buf (p, d) ↔ buf ≠ [] ∧ matchPattern p buf ≠ none := by
  constructor
  · intro h
    exact ⟨h.1, h.2.1⟩
  · rintro ⟨hbuf, hmatch⟩
    refine ⟨hbuf, hmatch, fun e' he' _ hlt => ?_⟩
    obtain ⟨q, hq⟩ := exists_of_mem_entries he'
    have hover : overlap p e'.1 = p.length := by
      rw [hq]
      exact overlap_self_append hp q
    exact absurd hover hlt.ne

/-- The own pattern of a node is cut off. -/
theorem cut_below (h : WF (.node p datas children)) (hcut : CutAll (entries (.node p datas children)))
    (he : e ∈ allEntries children) : Cut p e.1 := by
  obtain ⟨e', he', hover⟩ := exists_shared h he
  have hmem : (p ++ e.1, e.2) ∈ entries (.node p datas children) := by
    rw [entries_node]
    exact List.mem_append_right _ (List.mem_map_of_mem he)
  have hc := hcut _ hmem e' he'
  simp only [hover, List.take_left, List.drop_left] at hc
  exact hc

theorem cutAll_below (h : WF (.node p datas children)) (hcut : CutAll (entries (.node p datas children))) :
    CutAll (allEntries children) := by
  intro e he e' he'
  have hp := (wf_node.1 h).2.1
  have hmem : ∀ e ∈ allEntries children, (p ++ e.1, e.2) ∈ entries (.node p datas children) := by
    intro e he
    rw [entries_node]
    exact List.mem_append_right _ (List.mem_map_of_mem he)
  have hc := hcut _ (hmem e he) _ (hmem e' he')
  simp only [overlap_append hp, List.take_length_add_append, List.drop_length_add_append] at hc
  apply Cut.of_append _ hc
  rw [List.take_append_drop]
  exact cut_below h hcut he

/-- What is found below a node is found behind its own pattern. -/
theorem found_below (h : WF (.node p datas children)) (hcut : CutAll (entries (.node p datas children)))
    (he : e ∈ allEntries children) :
    Found (entries (.node p datas children)) buf (p ++ e.1, e.2) ↔
      ∃ rest, matchPattern p buf = some rest ∧ Found (allEntries children) rest e := by
  obtain ⟨hpne, hp, -, hchildren⟩ := wf_node.1 h
  have hpe := cut_below h hcut he
  have hene := (units_of_mem_allEntries children hchildren e he).1
  have hlen : (p ++ e.1).length = p.length + e.1.length := List.length_append
  constructor
  · rintro ⟨hbuf, hmatch, hleft⟩
    simp only at hmatch hleft
    rw [matchPattern_append hpe] at hmatch
    obtain ⟨rest, hrest⟩ : ∃ rest, matchPattern p buf = some rest :=
      Option.ne_none_iff_exists'.1 fun hnone => hmatch (by rw [hnone]; rfl)
    rw [hrest, Option.bind_some] at hmatch
    refine ⟨rest, hrest, ?_, hmatch, fun e' he' hpos hlt => ?_⟩
    · rintro rfl
      obtain ⟨e', he', hover⟩ := exists_shared h he
      have hpos := List.length_pos_iff.2 hpne
      have hepos := List.length_pos_iff.2 hene
      apply hleft e' he' (by omega) (by omega)
      rw [hover, List.take_left]
      exact hrest
    · have hmem : (p ++ e'.1, e'.2) ∈ entries (.node p datas children) := by
        rw [entries_node]
        exact List.mem_append_right _ (List.mem_map_of_mem he')
      have hover := overlap_append hp e.1 e'.1
      have hne := hleft _ hmem (by simp only; omega) (by simp only; omega)
      simp only [hover, List.take_length_add_append] at hne
      have hc : Cut p (e.1.take (overlap e.1 e'.1)) := by
        apply hpe.congr
        rw [List.head?_take, if_neg hpos.ne']
      rwa [matchPattern_append hc, hrest, Option.bind_some] at hne
  · rintro ⟨rest, hrest, hne, hmatch, hleft⟩
    have hbuf : buf ≠ [] := by
      rintro rfl
      rw [matchPattern_nil_right] at hrest
      exact hne (Option.some.inj hrest).symm
    refine ⟨hbuf, ?_, fun e' he' hpos hlt => ?_⟩
    · rwa [matchPattern_append hpe, hrest, Option.bind_some]
    simp only at hlt ⊢
    rw [entries_node] at he'
    rcases List.mem_append.1 he' with he' | he'
    · obtain ⟨d, -, rfl⟩ := List.mem_map.1 he'
      rw [overlap_append_self hp, List.take_left, hrest]
      exact fun h => hne (Option.some.inj h)
    · obtain ⟨e'', he'', rfl⟩ := List.mem_map.1 he'
      have hover := overlap_append hp e.1 e''.1
      simp only [hover] at hlt ⊢
      rw [List.take_length_add_append]
      rcases Nat.eq_zero_or_pos (overlap e.1 e''.1) with hzero | hpos'
      · rw [hzero, List.take_zero, List.append_nil, hrest]
        exact fun h => hne (Option.some.inj h)
      · have hc : Cut p (e.1.take (overlap e.1 e''.1)) := by
          apply hpe.congr
          rw [List.head?_take, if_neg hpos'.ne']
        rw [matchPattern_append hc, hrest, Option.bind_some]
        exact hleft e'' he'' hpos' (by omega)

/-! ### The search -/

/-- A result of the search is right: there is one if a pattern is found, and its option data are of patterns that
are found. -/
structure RightResult (es : List (List UInt8 × SDFOptionData)) (buf : List UInt8)
    (result : Option (SdfTreeNode × List UInt8)) : Prop where
  none : result = none → ∀ e ∈ es, ¬Found es buf e
  some : ∀ r, result = some r → r.1.optionData ≠ [] ∧ ∀ d ∈ r.1.optionData, ∃ e ∈ es, e.2 = d ∧ Found es buf e

theorem found_append_left (h : AllWF (n :: nodes)) (he : e ∈ entries n) :
    Found (entries n ++ allEntries nodes) buf e ↔ Found (entries n) buf e := by
  constructor
  · rintro ⟨hbuf, hmatch, hleft⟩
    exact ⟨hbuf, hmatch, fun e' he' => hleft e' (List.mem_append_left _ he')⟩
  · rintro ⟨hbuf, hmatch, hleft⟩
    refine ⟨hbuf, hmatch, fun e' he' hpos hlt => ?_⟩
    rcases List.mem_append.1 he' with he' | he'
    · exact hleft e' he' hpos hlt
    · exact absurd (overlap_of_mem h he he').1 hpos.ne'

theorem found_append_right (h : AllWF (n :: nodes)) (he : e ∈ allEntries nodes) :
    Found (entries n ++ allEntries nodes) buf e ↔ Found (allEntries nodes) buf e := by
  constructor
  · rintro ⟨hbuf, hmatch, hleft⟩
    exact ⟨hbuf, hmatch, fun e' he' => hleft e' (List.mem_append_right _ he')⟩
  · rintro ⟨hbuf, hmatch, hleft⟩
    refine ⟨hbuf, hmatch, fun e' he' hpos hlt => ?_⟩
    rcases List.mem_append.1 he' with he' | he'
    · exact absurd (overlap_of_mem h he' he).2 hpos.ne'
    · exact hleft e' he' hpos hlt

mutual

theorem findPiiRecursively_spec (n : SdfTreeNode) (buf : List UInt8) (h : WF n) (hcut : CutAll (entries n)) :
    RightResult (entries n) buf (findPiiRecursively n buf) :=
  match n with
  | .node p datas children => by
    obtain ⟨hpne, hp, -, hchildren⟩ := wf_node.1 h
    have hmem : ∀ e ∈ entries (.node p datas children),
        (∃ d ∈ datas, e = (p, d)) ∨ ∃ e' ∈ allEntries children, e = (p ++ e'.1, e'.2) := by
      intro e he
      rw [entries_node] at he
      rcases List.mem_append.1 he with he | he
      · obtain ⟨d, hd, rfl⟩ := List.mem_map.1 he
        exact .inl ⟨d, hd, rfl⟩
      · obtain ⟨e', he', rfl⟩ := List.mem_map.1 he
        exact .inr ⟨e', he', rfl⟩
    rw [findPiiRecursively]
    by_cases hbuf : buf = []
    · rw [if_pos hbuf]
      exact ⟨fun _ e _ hfound => hfound.1 hbuf, fun r hr => absurd hr (Option.some_ne_none _).symm⟩
    rw [if_neg hbuf]
    cases hmatch : matchPattern p buf with
    | none =>
      refine ⟨fun _ e he hfound => ?_, fun r hr => absurd hr (Option.some_ne_none _).symm⟩
      rcases hmem e he with ⟨d, hd, rfl⟩ | ⟨e', he', rfl⟩
      · exact hfound.2.1 hmatch
      · obtain ⟨rest, hrest, -⟩ := (found_below h hcut he').1 hfound
        exact absurd (hmatch.symm.trans hrest) (Option.some_ne_none _).symm
    | some rest =>
      have hspec := findPii_spec children rest hchildren (cutAll_below h hcut)
      simp only
      cases hfind : findPii children rest with
      | some r =>
        obtain ⟨hne, hdatas⟩ := hspec.some r hfind
        refine ⟨fun hnone => absurd hnone (Option.some_ne_none _), fun r' hr' => ?_⟩
        obtain rfl := Option.some.inj hr'
        refine ⟨hne, fun d hd => ?_⟩
        obtain ⟨e, he, rfl, hfound⟩ := hdatas d hd
        refine ⟨(p ++ e.1, e.2), ?_, rfl, (found_below h hcut he).2 ⟨rest, hmatch, hfound⟩⟩
        rw [entries_node]
        exact List.mem_append_right _ (List.mem_map_of_mem he)
      | none =>
        have hbelow : ∀ e ∈ allEntries children, ¬Found (entries (.node p datas children)) buf (p ++ e.1, e.2) := by
          intro e he hfound
          obtain ⟨rest', hrest', hfound'⟩ := (found_below h hcut he).1 hfound
          obtain rfl := Option.some.inj (hmatch.symm.trans hrest')
          exact hspec.none hfind e he hfound'
        simp only
        by_cases hdatas : datas = []
        · rw [if_pos hdatas]
          refine ⟨fun _ e he hfound => ?_, fun r hr => absurd hr (Option.some_ne_none _).symm⟩
          rcases hmem e he with ⟨d, hd, rfl⟩ | ⟨e', he', rfl⟩
          · rw [hdatas] at hd
            exact absurd hd List.not_mem_nil
          · exact hbelow e' he' hfound
        · rw [if_neg hdatas]
          refine ⟨fun hnone => absurd hnone (Option.some_ne_none _), fun r hr => ?_⟩
          obtain rfl := Option.some.inj hr
          refine ⟨hdatas, fun d hd => ⟨(p, d), ?_, rfl, (found_here hp).2 ⟨hbuf, ?_⟩⟩⟩
          · rw [entries_node]
            exact List.mem_append_left _ (List.mem_map_of_mem hd)
          · rw [hmatch]
            exact Option.some_ne_none _

theorem findPii_spec (nodes : List SdfTreeNode) (buf : List UInt8) (h : AllWF nodes) (hcut : CutAll (allEntries nodes)) :
    RightResult (allEntries nodes) buf (findPii nodes buf) :=
  match nodes with
  | [] => by
    rw [findPii, allEntries_nil]
    exact ⟨fun _ e he => absurd he List.not_mem_nil, fun r hr => absurd hr (Option.some_ne_none _).symm⟩
  | n :: nodes => by
    obtain ⟨hn, -, hnodes⟩ := allWF_cons.1 h
    rw [allEntries_cons] at hcut ⊢
    have hspec := findPiiRecursively_spec n buf hn fun e he e' he' =>
      hcut e (List.mem_append_left _ he) e' (List.mem_append_left _ he')
    have hrest := findPii_spec nodes buf hnodes fun e he e' he' =>
      hcut e (List.mem_append_right _ he) e' (List.mem_append_right _ he')
    rw [findPii]
    cases hfind : findPiiRecursively n buf with
    | some r =>
      obtain ⟨hne, hdatas⟩ := hspec.some r hfind
      refine ⟨fun hnone => absurd hnone (Option.some_ne_none _), fun r' hr' => ?_⟩
      obtain rfl := Option.some.inj hr'
      refine ⟨hne, fun d hd => ?_⟩
      obtain ⟨e, he, rfl, hfound⟩ := hdatas d hd
      exact ⟨e, List.mem_append_left _ he, rfl, (found_append_left h he).2 hfound⟩
    | none =>
      refine ⟨fun hnone e he hfound => ?_, fun r hr => ?_⟩
      · rcases List.mem_append.1 he with he | he
        · exact hspec.none hfind e he ((found_append_left h he).1 hfound)
        · exact hrest.none hnone e he ((found_append_right h he).1 hfound)
      · obtain ⟨hne, hdatas⟩ := hrest.some r hr
        refine ⟨hne, fun d hd => ?_⟩
        obtain ⟨e, he, rfl, hfound⟩ := hdatas d hd
        exact ⟨e, List.mem_append_right _ he, rfl, (found_append_right h he).2 hfound⟩

end

end

/-! ## The tree agrees with its patterns -/

/-- The pattern alone matches the buffer, which may end before it. -/
def Matches (d : SDFOptionData) (buf : List UInt8) : Prop := buf ≠ [] ∧ matchPattern d.pii buf ≠ none

/-- The tree matches a buffer if one of the patterns, alone in a tree, does, and so does the pattern of each option
data that is returned. -/
structure Agrees (datas : List SDFOptionData) (buf : List UInt8) : Prop where
  found : (findPii (piiTree datas) buf).isSome ↔ ∃ d ∈ datas, (findPii (piiTree [d]) buf).isSome
  returned : ∀ n rest, findPii (piiTree datas) buf = some (n, rest) →
    ∀ d ∈ n.optionData, (findPii (piiTree [d]) buf).isSome

/-- Where patterns part, no optional mark is parted from its character. -/
def MarksKept (datas : List SDFOptionData) : Prop :=
  ∀ d ∈ datas, ∀ d' ∈ datas, Cut (d.pii.take (overlap d.pii d'.pii)) (d.pii.drop (overlap d.pii d'.pii))

/-- Something is left of the buffer behind each part that the pattern has in common with another one. -/
def LeftBehind (datas : List SDFOptionData) (d : SDFOptionData) (buf : List UInt8) : Prop :=
  ∀ d' ∈ datas, 0 < overlap d.pii d'.pii → overlap d.pii d'.pii < d.pii.length →
    matchPattern (d.pii.take (overlap d.pii d'.pii)) buf ≠ some []

variable {datas : List SDFOptionData} {buf : List UInt8}

/-- A pattern alone in a tree is matched as a whole. -/
theorem isSome_findPii_singleton (d : SDFOptionData) (buf : List UInt8) :
    (findPii (piiTree [d]) buf).isSome ↔ Matches d buf := by
  have htree : piiTree [d] = [.node d.pii [d] []] := rfl
  rw [htree, findPii, findPiiRecursively]
  unfold Matches
  by_cases hbuf : buf = []
  · rw [if_pos hbuf]
    simp [findPii, hbuf]
  · rw [if_neg hbuf]
    cases hmatch : matchPattern d.pii buf with
    | none => simp [findPii]
    | some rest => simp [findPii, hbuf]

/-- The patterns that are found are those that match and leave something of the buffer behind common parts. -/
theorem found_piiTree_iff {es : List (List UInt8 × SDFOptionData)}
    (hes : es.Perm (datas.map fun d => (d.pii, d))) (d : SDFOptionData) :
    Found es buf (d.pii, d) ↔ Matches d buf ∧ LeftBehind datas d buf := by
  constructor
  · rintro ⟨hbuf, hmatch, hleft⟩
    exact ⟨⟨hbuf, hmatch⟩, fun d' hd' => hleft (d'.pii, d') (hes.symm.subset (List.mem_map_of_mem hd'))⟩
  · rintro ⟨⟨hbuf, hmatch⟩, hleft⟩
    refine ⟨hbuf, hmatch, fun e' he' => ?_⟩
    obtain ⟨d', hd', rfl⟩ := List.mem_map.1 (hes.subset he')
    exact hleft d' hd'

/-- **The tree and its patterns**: where patterns keep their optional marks, the tree agrees with them on a buffer if
and only if, when some match, one of these leaves something of the buffer behind its common parts. -/
theorem agrees_iff (h : Rules datas) (hmarks : MarksKept datas) (buf : List UInt8) :
    Agrees datas buf ↔
      ((∃ d ∈ datas, Matches d buf) → ∃ d ∈ datas, Matches d buf ∧ LeftBehind datas d buf) := by
  obtain ⟨hwf, hperm⟩ := allEntries_piiTree h
  have hcut : CutAll (allEntries (piiTree datas)) := by
    intro e he e' he'
    obtain ⟨d, hd, rfl⟩ := List.mem_map.1 (hperm.subset he)
    obtain ⟨d', hd', rfl⟩ := List.mem_map.1 (hperm.subset he')
    exact hmarks d hd d' hd'
  have hspec := findPii_spec _ buf hwf hcut
  have hfound : ∀ e ∈ allEntries (piiTree datas), Found (allEntries (piiTree datas)) buf e →
      e.2 ∈ datas ∧ Matches e.2 buf ∧ LeftBehind datas e.2 buf := by
    intro e he hfound
    obtain ⟨d, hd, rfl⟩ := List.mem_map.1 (hperm.subset he)
    exact ⟨hd, (found_piiTree_iff hperm d).1 hfound⟩
  have htree : (findPii (piiTree datas) buf).isSome ↔ ∃ d ∈ datas, Matches d buf ∧ LeftBehind datas d buf := by
    constructor
    · intro hsome
      obtain ⟨r, hr⟩ := Option.isSome_iff_exists.1 hsome
      obtain ⟨hne, hdatas⟩ := hspec.some r hr
      obtain ⟨d, hd⟩ := List.exists_mem_of_ne_nil _ hne
      obtain ⟨e, he, -, hf⟩ := hdatas d hd
      exact ⟨e.2, hfound e he hf⟩
    · rintro ⟨d, hd, hmatch⟩
      by_contra hnone
      rw [Option.not_isSome_iff_eq_none] at hnone
      exact hspec.none hnone (d.pii, d) (hperm.symm.subset (List.mem_map_of_mem hd))
        ((found_piiTree_iff hperm d).2 hmatch)
  constructor
  · rintro ⟨hiff, -⟩ ⟨d, hd, hmatch⟩
    exact htree.1 (hiff.2 ⟨d, hd, (isSome_findPii_singleton d buf).2 hmatch⟩)
  · intro hleft
    refine ⟨htree.trans ⟨?_, ?_⟩, fun n rest hr d hd => ?_⟩
    · rintro ⟨d, hd, hmatch, -⟩
      exact ⟨d, hd, (isSome_findPii_singleton d buf).2 hmatch⟩
    · rintro ⟨d, hd, hsome⟩
      exact hleft ⟨d, hd, (isSome_findPii_singleton d buf).1 hsome⟩
    · obtain ⟨e, he, rfl, hf⟩ := (hspec.some _ hr).2 d hd
      exact (isSome_findPii_singleton _ _).2 (hfound e he hf).2.1

/-- Without optional marks there is nothing to keep. -/
theorem marksKept_of_not_mem (h : ∀ d ∈ datas, optionalMark ∉ d.pii) : MarksKept datas := by
  intro d hd d' hd'
  obtain ⟨x, p', q', hp, hq, hx, -, -, hlen, -⟩ := exists_common d.units d'.units
  have hmark := h d hd
  rw [hlen]
  rw [hp] at hmark ⊢
  rw [List.take_left, List.drop_left]
  clear hp hq hlen
  induction hx with
  | nil => exact .nil _
  | @char c x hc _ ih =>
    rw [List.cons_append, List.mem_cons, not_or] at hmark
    exact .required (.char hc) (fun hhead => hmark.2 (List.mem_of_mem_head? hhead)) (ih hmark.2)
  | @escape c x _ ih =>
    rw [List.cons_append, List.cons_append, List.mem_cons, not_or, List.mem_cons, not_or] at hmark
    exact .required (.escape c) (fun hhead => hmark.2.2 (List.mem_of_mem_head? hhead)) (ih hmark.2.2)

/-! ### Patterns that part -/

/-- The patterns `ab` and `ac`. -/
def ab : SDFOptionData :=
  ⟨[97, 98], 1, 138, by decide, .char (by decide) (.char (by decide) .nil), by decide⟩

def ac : SDFOptionData :=
  ⟨[97, 99], 2, 138, by decide, .char (by decide) (.char (by decide) .nil), by decide⟩

/-- The patterns `ab?c` and `abd`. -/
def abOptionalC : SDFOptionData :=
  ⟨[97, 98, 63, 99], 1, 138, by decide,
    .char (by decide) (.char (by decide) (.char (by decide) (.char (by decide) .nil))), by decide⟩

def abd : SDFOptionData :=
  ⟨[97, 98, 100], 2, 138, by decide, .char (by decide) (.char (by decide) (.char (by decide) .nil)), by decide⟩

/-- The pattern `ab` matches the buffer `a`, as far as that goes, and `ab?c` matches `ac`; the trees match neither. -/
theorem tree_disagrees : ¬Agrees [ab, ac] [97] ∧ ¬Agrees [abOptionalC, abd] [97, 99] := by
  constructor
  · intro h
    have hfound := h.found.2 ⟨_, List.mem_cons_self, (isSome_findPii_singleton _ _).2 ⟨by decide, by
      simp [ab, matchPattern, matchUnit, backslash, optionalMark]⟩⟩
    have htree : piiTree [ab, ac] = [.node [97] [] [.node [98] [ab] [], .node [99] [ac] []]] := by rfl
    rw [htree] at hfound
    simp [findPii, findPiiRecursively, matchPattern, matchUnit, backslash, optionalMark] at hfound
  · intro h
    have hfound := h.found.2 ⟨_, List.mem_cons_self, (isSome_findPii_singleton _ _).2 ⟨by decide, by
      simp [abOptionalC, matchPattern, matchUnit, backslash, optionalMark]⟩⟩
    have htree : piiTree [abOptionalC, abd] =
        [.node [97, 98] [] [.node [63, 99] [abOptionalC] [], .node [100] [abd] []]] := by rfl
    rw [htree] at hfound
    simp [findPii, findPiiRecursively, matchPattern, matchUnit, backslash, optionalMark] at hfound

/-- The buffer `ac` is matched by the tree of `ab` and `ac`. -/
theorem agrees_ab_ac : Agrees [ab, ac] [97, 99] := by
  have hmarks : MarksKept [ab, ac] := marksKept_of_not_mem (by decide)
  have hroom : ∀ p, [ab, ac].countP (fun d => d.pii = p) < 2 ^ 16 :=
    fun p => lt_of_le_of_lt List.countP_le_length (by decide)
  have hover : overlap ac.pii ab.pii = 1 := by decide
  refine (agrees_iff ⟨by decide, hroom⟩ hmarks [97, 99]).2 fun _ =>
    ⟨ac, List.mem_cons_of_mem _ List.mem_cons_self, ⟨by decide, ?_⟩, ?_⟩
  · simp [ac, matchPattern, matchUnit, backslash, optionalMark]
  · intro d' hd' _ hlt
    rcases List.mem_cons.1 hd' with rfl | hd'
    · rw [hover]
      simp [ac, matchPattern, matchUnit, backslash, optionalMark]
    · obtain rfl := List.mem_singleton.1 hd'
      exact absurd hlt (by decide)

end Snort.Sdf
