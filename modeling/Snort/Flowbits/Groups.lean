import Snort.Flowbits.Parse

/-!
# Groups of bits that exclude one another

* `isBitSet_sets`, `isBitSet_clears`: what an operation does to the bits of a flow;
* `GroupsExclusive`: in every run at most one bit of a named group is set, and an operation changes no
  bit outside the group of its own;
* `Agreed`: the copies of groups in the options, and the masks of groups, agree with the groups of bits;
* **`flowbits_groups_exclusive_iff`**: groups are exclusive if and only if they agree.
-/

namespace Snort.Flowbits

variable {giFlowbitSize : ℕ} {s : State} {bits : Bitop}

/-! ### Masks -/

/-- The loop of `boSetGrpBit`. -/
theorem foldl_mask (mask : ℕ → UInt8) (m : ℕ) (buf : ℕ → UInt8) (j : ℕ) :
    (List.range m).foldl (fun buf i => Function.update buf (i / 8) (buf (i / 8) &&& mask (i / 8))) buf j =
      if j * 8 < m then buf j &&& mask j else buf j := by
  induction m with
  | zero => rw [if_neg (by omega), List.range_zero, List.foldl_nil]
  | succ m ih =>
    rw [List.range_succ, List.foldl_append, List.foldl_cons, List.foldl_nil]
    by_cases hj : j = m / 8
    · subst hj
      rw [Function.update_self, ih, if_pos (show m / 8 * 8 < m + 1 by omega)]
      split
      · rw [UInt8.and_assoc, UInt8.and_self]
      · rfl
    · rw [Function.update_of_ne hj, ih]
      by_cases hlt : j * 8 < m
      · rw [if_pos hlt, if_pos (by omega)]
      · rw [if_neg hlt, if_neg (by omega)]

/-- The bits that are left when those of a group have been cleared. -/
theorem boSetGrpBit_eq (h : Inv giFlowbitSize s) {g : Name} {grp : FlowbitsGrp}
    (hgrp : s.flowbitsGrpHash.find g = some grp) (hbits : bits.Sized giFlowbitSize) {p : ℕ}
    (hp : p < giFlowbitSize * 8) :
    ∃ bits', boSetGrpBit s.flowbitsGrpHash bits g p = some bits' ∧ bits'.Sized giFlowbitSize ∧
      ∀ c, boIsBitSet bits' c = true ↔
        c ≠ p ∧ boIsBitSet bits c = true ∧ boIsBitSet grp.grpBitOp c = true := by
  obtain ⟨hcount, hsized, hmax, hmask⟩ := h.grp g grp hgrp
  have hclear := hbits.boClearBit p
  have hroom : ¬(bits.uiMaxBits ≤ p ∨ bits.uiMaxBits ≤ grp.maxId ∨ grp.count ≤ 0) := by
    rw [hbits.maxBits]
    omega
  unfold boSetGrpBit
  rw [hgrp]
  simp only [if_neg hroom]
  refine ⟨_, rfl, ⟨hclear.size, hclear.maxBits⟩, ?_⟩
  intro c
  rw [boIsBitSet_iff]
  simp only [foldl_mask]
  have hkept := boIsBitSet_boClearBit bits p c
  rw [boIsBitSet_iff] at hkept
  have hbit := boIsBitSet_iff grp.grpBitOp c
  rw [hsized.maxBits] at hbit
  rw [← and_assoc, ← hkept, hclear.maxBits]
  by_cases hc : c < giFlowbitSize * 8
  · by_cases hle : c / 8 * 8 < grp.maxId + 1
    · rw [if_pos hle, byteBit_and, Bool.and_eq_true, hbit]
      tauto
    · -- behind the greatest id the mask is not applied, but has no cleared bits
      have hset : boIsBitSet grp.grpBitOp c = true := by
        rw [← Bool.not_eq_false]
        intro hfalse
        have hcmax := hmask c hc hfalse
        omega
      rw [if_neg hle, hset]
      tauto
  · tauto

/-! ### Operations -/

/-- The group that an option clears, if it sets its bit. -/
def FlowbitsOp.cleared (op : FlowbitsOp) : Option Name :=
  op.group.filter fun group => !sameIgnoringCase group defaultFlowbitGroup

/-- The mask of the option lets the bit alone. -/
def Keeps (s : State) (op : FlowbitsOp) (c : ℕ) : Prop :=
  ∀ g grp, op.cleared = some g → s.flowbitsGrpHash.find g = some grp →
    boIsBitSet grp.grpBitOp c = true

/-- The operation sets its bit. -/
def FlowbitsOp.Sets (op : FlowbitsOp) (bits : Bitop) : Prop :=
  op.type = .set ∨ op.type = .toggle ∧ boIsBitSet bits op.id = false

theorem FlowbitsOp.Sets.grouped {op : FlowbitsOp} (h : op.Sets bits) : op.type.grouped = true := by
  rcases h with h | ⟨h, -⟩
  · rw [h]
    rfl
  · rw [h]
    rfl

/-- A group that is cleared is that of the bit. -/
theorem Loaded.cleared_eq (h : Loaded giFlowbitSize s) {op : FlowbitsOp} (hop : op ∈ s.ops)
    (hgrouped : op.type.grouped = true) {g : Name} (hg : op.cleared = some g) :
    g ≠ defaultFlowbitGroup ∧
      ∃ n a, s.flowbitsHash.find n = some a ∧ a.id = op.id ∧ a.group = some g := by
  obtain ⟨t, hops⟩ := h.ops
  obtain ⟨n, a, g', hn, hid, -, hg', hag⟩ := hops op hop hgrouped
  unfold FlowbitsOp.cleared at hg
  rw [hg', Option.filter_some] at hg
  split at hg
  · rename_i hname
    cases hg
    have hdef : g ≠ defaultFlowbitGroup := by
      rintro rfl
      exact absurd hname (by decide)
    exact ⟨hdef, n, a, hn, hid, hag.resolve_left hdef⟩
  · cases hg

theorem Loaded.id_lt (h : Loaded giFlowbitSize s) {op : FlowbitsOp} (hop : op ∈ s.ops)
    (hgrouped : op.type.grouped = true) : op.id < giFlowbitSize * 8 := by
  obtain ⟨t, hops⟩ := h.ops
  obtain ⟨n, a, g, hn, hid, -⟩ := hops op hop hgrouped
  rw [← hid]
  exact (h.inv.id_lt n a hn).trans_le h.inv.count_le

/-- An operation that sets its bit. -/
theorem isBitSet_sets (h : Loaded giFlowbitSize s) {op : FlowbitsOp} (hop : op ∈ s.ops)
    (hbits : bits.Sized giFlowbitSize) (hsets : op.Sets bits) :
    (flowBitsCheck s.flowbitsGrpHash op bits).2.Sized giFlowbitSize ∧
      ∀ c, boIsBitSet (flowBitsCheck s.flowbitsGrpHash op bits).2 c = true ↔
        c = op.id ∨ boIsBitSet bits c = true ∧ Keeps s op c := by
  have hid := h.id_lt hop hsets.grouped
  have hclears : clearsGroup op bits = op.cleared := if_pos hsets
  -- with the bit cleared, both operations set it
  have hset : ∀ bits' : Bitop, bits'.Sized giFlowbitSize →
      (op.type = .toggle → boIsBitSet bits' op.id = false) →
      (checkBit op bits').2 = boSetBit bits' op.id := by
    intro bits' _ htoggle
    unfold checkBit
    rcases hsets with htype | ⟨htype, -⟩
    · rw [htype]
    · rw [htype]
      simp only [htoggle htype, Bool.false_eq_true, if_false]
  have hbit : ∀ bits' : Bitop, bits'.Sized giFlowbitSize → ∀ c,
      boIsBitSet (boSetBit bits' op.id) c = true ↔ c = op.id ∨ boIsBitSet bits' c = true := by
    intro bits' hb c
    rw [boIsBitSet_boSetBit, hb.maxBits]
    simp only [hid, and_true]
  unfold flowBitsCheck
  rw [hclears]
  cases hg : op.cleared with
  | none =>
    simp only
    rw [hset bits hbits (fun htype => (hsets.resolve_left (by rw [htype]; decide)).2)]
    refine ⟨hbits.boSetBit _, fun c => ?_⟩
    have hkeeps : Keeps s op c := by
      intro g grp hg'
      rw [hg] at hg'
      cases hg'
    rw [hbit bits hbits]
    simp only [hkeeps, and_true]
  | some g =>
    obtain ⟨hdef, n, a, hn, haid, hag⟩ := h.cleared_eq hop hsets.grouped hg
    obtain ⟨grp, hgrp, -⟩ := h.inv.member n a g hn hag hdef
    obtain ⟨bits', hbits', hsized', hleft⟩ := boSetGrpBit_eq h.inv hgrp hbits hid
    have hclear : boIsBitSet bits' op.id = false := by
      rw [← Bool.not_eq_true, hleft]
      exact fun hall => hall.1 rfl
    simp only [hbits']
    rw [hset bits' hsized' fun _ => hclear]
    refine ⟨hsized'.boSetBit _, fun c => ?_⟩
    have hkeeps : Keeps s op c ↔ boIsBitSet grp.grpBitOp c = true := by
      constructor
      · exact fun hk => hk g grp hg hgrp
      · intro hc g' grp' hg' hgrp'
        rw [hg] at hg'
        cases hg'
        rw [hgrp] at hgrp'
        cases hgrp'
        exact hc
    rw [hbit bits' hsized', hleft, hkeeps]
    tauto

/-- An operation that does not set its bit. -/
theorem isBitSet_clears (hbits : bits.Sized giFlowbitSize) {op : FlowbitsOp} (hsets : ¬op.Sets bits) :
    (flowBitsCheck s.flowbitsGrpHash op bits).2.Sized giFlowbitSize ∧
      (∀ c, boIsBitSet (flowBitsCheck s.flowbitsGrpHash op bits).2 c = true →
        boIsBitSet bits c = true) ∧
      (op.type.grouped = true → ∀ c, c ≠ op.id →
        boIsBitSet (flowBitsCheck s.flowbitsGrpHash op bits).2 c = boIsBitSet bits c) := by
  have hclears : clearsGroup op bits = none := if_neg hsets
  have hcheck : flowBitsCheck s.flowbitsGrpHash op bits = checkBit op bits := by
    unfold flowBitsCheck
    rw [hclears]
  have hcleared : ∀ c, c ≠ op.id → boIsBitSet (boClearBit bits op.id) c = boIsBitSet bits c := by
    intro c hc
    rw [Bool.eq_iff_iff, boIsBitSet_boClearBit]
    exact ⟨And.right, fun h => ⟨hc, h⟩⟩
  rw [hcheck]
  unfold checkBit
  cases htype : op.type with
  | set => exact absurd (.inl htype) hsets
  | unset =>
    exact ⟨hbits.boClearBit _, fun c hc => ((boIsBitSet_boClearBit _ _ _).1 hc).2, fun hg => by cases hg⟩
  | reset =>
    refine ⟨⟨hbits.size, hbits.maxBits⟩, fun c hc => ?_, fun hg => by cases hg⟩
    rw [boIsBitSet_boResetBITOP hbits] at hc
    cases hc
  | toggle =>
    have hset : boIsBitSet bits op.id = true := by
      rw [← Bool.not_eq_false]
      exact fun hfalse => hsets (.inr ⟨htype, hfalse⟩)
    simp only [hset, if_true]
    exact ⟨hbits.boClearBit _, fun c hc => ((boIsBitSet_boClearBit _ _ _).1 hc).2,
      fun _ c hc => hcleared c hc⟩
  | isset => exact ⟨hbits, fun c hc => hc, fun _ c _ => rfl⟩
  | isnotset => exact ⟨hbits, fun c hc => hc, fun _ c _ => rfl⟩
  | noalert => exact ⟨hbits, fun c hc => hc, fun _ c _ => rfl⟩

/-! ### Exclusive groups -/

/-- The bits belong to one group that has a name. -/
def SameGroup (s : State) (b c : ℕ) : Prop :=
  ∃ g, g ≠ defaultFlowbitGroup ∧
    (∃ n a, s.flowbitsHash.find n = some a ∧ a.id = b ∧ a.group = some g) ∧
    ∃ n a, s.flowbitsHash.find n = some a ∧ a.id = c ∧ a.group = some g

theorem SameGroup.symm {b c : ℕ} (h : SameGroup s b c) : SameGroup s c b := by
  obtain ⟨g, hdef, hb, hc⟩ := h
  exact ⟨g, hdef, hc, hb⟩

/-- Operations on a flow. -/
def runChecks (s : State) (ops : List FlowbitsOp) (bits : Bitop) : Bitop :=
  ops.foldl (fun bits op => (flowBitsCheck s.flowbitsGrpHash op bits).2) bits

/-- At most one bit of each named group is set. -/
def Exclusive (s : State) (bits : Bitop) : Prop :=
  ∀ b c, SameGroup s b c → boIsBitSet bits b = true → boIsBitSet bits c = true → b = c

/-- A set or toggle operation changes its bit and bits of its group only. -/
def Local (s : State) (bits : Bitop) : Prop :=
  ∀ op ∈ s.ops, op.type.grouped = true → ∀ c,
    boIsBitSet (flowBitsCheck s.flowbitsGrpHash op bits).2 c ≠ boIsBitSet bits c →
      c = op.id ∨ SameGroup s op.id c

/-- In every state that operations of the configuration lead to. -/
def GroupsExclusive (giFlowbitSize : ℕ) (s : State) : Prop :=
  ∀ ops : List FlowbitsOp, (∀ op ∈ ops, op ∈ s.ops) →
    Exclusive s (runChecks s ops (boInitBITOP giFlowbitSize)) ∧
      Local s (runChecks s ops (boInitBITOP giFlowbitSize))

/-- Two options on different bits: if the bits are in one group, the copy of the group in the first
option is not the default one; if its mask clears the other bit, the bits are in one group. -/
def Agreed (s : State) : Prop :=
  ∀ op ∈ s.ops, ∀ op' ∈ s.ops, op.type.grouped = true → op'.type.grouped = true → op.id ≠ op'.id →
    (SameGroup s op.id op'.id → op.cleared ≠ none) ∧ (¬Keeps s op op'.id → SameGroup s op.id op'.id)

/-- The mask of an option clears the other bits of its group. -/
theorem Loaded.not_keeps (h : Loaded giFlowbitSize s) {op : FlowbitsOp} (hop : op ∈ s.ops)
    (hgrouped : op.type.grouped = true) {c : ℕ} (hsame : SameGroup s op.id c) (hg : op.cleared ≠ none) :
    ¬Keeps s op c := by
  obtain ⟨g, hg⟩ := Option.ne_none_iff_exists'.1 hg
  obtain ⟨hdef, n, a, hn, haid, hag⟩ := h.cleared_eq hop hgrouped hg
  obtain ⟨g', -, ⟨m, b, hm, hbid, hbg⟩, m', b', hm', rfl, hbg'⟩ := hsame
  have hname := h.inv.id_inj n m a b hn hm (haid.trans hbid.symm)
  subst hname
  rw [hn] at hm
  cases hm
  rw [hag] at hbg
  cases hbg
  obtain ⟨grp, hgrp, hbit⟩ := h.inv.member m' b' g hm' hbg' hdef
  intro hkeeps
  exact absurd (hbit.symm.trans (hkeeps g grp hg hgrp)) (by decide)

/-- What holds in every state. -/
structure Reached (giFlowbitSize : ℕ) (s : State) (bits : Bitop) : Prop where
  sized : bits.Sized giFlowbitSize
  settable : ∀ c, boIsBitSet bits c = true → ∃ op ∈ s.ops, op.type.grouped = true ∧ op.id = c
  exclusive : Exclusive s bits

theorem Reached.check (h : Loaded giFlowbitSize s) (hagreed : Agreed s) (hb : Reached giFlowbitSize s bits)
    {op : FlowbitsOp} (hop : op ∈ s.ops) :
    Reached giFlowbitSize s (flowBitsCheck s.flowbitsGrpHash op bits).2 := by
  by_cases hsets : op.Sets bits
  · obtain ⟨hsized, hset⟩ := isBitSet_sets h hop hb.sized hsets
    -- a bit that was set before is not kept, if it is in the group of the bit that is set
    have hnew : ∀ c, SameGroup s op.id c → boIsBitSet bits c = true ∧ Keeps s op c → c = op.id := by
      rintro c hsame ⟨hc, hkeeps⟩
      by_contra hne
      obtain ⟨op', hop', hgrouped', rfl⟩ := hb.settable c hc
      have hcleared := (hagreed op hop op' hop' hsets.grouped hgrouped' (Ne.symm hne)).1 hsame
      exact h.not_keeps hop hsets.grouped hsame hcleared hkeeps
    refine ⟨hsized, ?_, ?_⟩
    · intro c hc
      rcases (hset c).1 hc with rfl | ⟨hc, -⟩
      · exact ⟨op, hop, hsets.grouped, rfl⟩
      · exact hb.settable c hc
    · intro b c hsame hbset hcset
      rcases (hset b).1 hbset with rfl | hbold
      · rcases (hset c).1 hcset with rfl | hcold
        · rfl
        · exact (hnew c hsame hcold).symm
      · rcases (hset c).1 hcset with rfl | hcold
        · exact hnew b hsame.symm hbold
        · exact hb.exclusive b c hsame hbold.1 hcold.1
  · obtain ⟨hsized, hset, -⟩ := @isBitSet_clears _ s bits hb.sized op hsets
    exact ⟨hsized, fun c hc => hb.settable c (hset c hc),
      fun b c hsame hbset hcset => hb.exclusive b c hsame (hset b hbset) (hset c hcset)⟩

/-- One operation changes no bit outside its group. -/
theorem Reached.local (h : Loaded giFlowbitSize s) (hagreed : Agreed s)
    (hb : Reached giFlowbitSize s bits) : Local s bits := by
  intro op hop hgrouped c hchange
  by_cases hc : c = op.id
  · exact .inl hc
  · right
    by_cases hsets : op.Sets bits
    · have hset := (isBitSet_sets h hop hb.sized hsets).2 c
      have hold : boIsBitSet bits c = true ∧ ¬Keeps s op c := by
        rw [ne_eq, Bool.eq_iff_iff, hset] at hchange
        tauto
      obtain ⟨op', hop', hgrouped', rfl⟩ := hb.settable c hold.1
      exact (hagreed op hop op' hop' hgrouped hgrouped' (Ne.symm hc)).2 hold.2
    · exact absurd ((isBitSet_clears hb.sized hsets).2.2 hgrouped c hc) hchange

theorem reached_runChecks (h : Loaded giFlowbitSize s) (hagreed : Agreed s) (ops : List FlowbitsOp)
    (hops : ∀ op ∈ ops, op ∈ s.ops) (hb : Reached giFlowbitSize s bits) :
    Reached giFlowbitSize s (runChecks s ops bits) := by
  induction ops generalizing bits with
  | nil => exact hb
  | cons op ops ih =>
    exact ih (fun o ho => hops o (List.mem_cons_of_mem _ ho))
      (hb.check h hagreed (hops op List.mem_cons_self))

/-- The first operation on a flow that sets a bit. -/
theorem isBitSet_first (h : Loaded giFlowbitSize s) {op : FlowbitsOp} (hop : op ∈ s.ops)
    (hgrouped : op.type.grouped = true) :
    (runChecks s [op] (boInitBITOP giFlowbitSize)).Sized giFlowbitSize ∧
      ∀ c, boIsBitSet (runChecks s [op] (boInitBITOP giFlowbitSize)) c = true ↔ c = op.id := by
  have hsets : op.Sets (boInitBITOP giFlowbitSize) := by
    rcases of_decide_eq_true hgrouped with htype | htype
    · exact .inl htype
    · exact .inr ⟨htype, boIsBitSet_boInitBITOP ..⟩
  obtain ⟨hsized, hset⟩ := isBitSet_sets h hop (sized_boInitBITOP giFlowbitSize) hsets
  refine ⟨hsized, fun c => (hset c).trans ?_⟩
  simp only [boIsBitSet_boInitBITOP, Bool.false_eq_true, false_and, or_false]

/-- Two operations on different bits show where the groups do not agree. -/
theorem agreed_of_groupsExclusive (h : Loaded giFlowbitSize s)
    (hex : GroupsExclusive giFlowbitSize s) : Agreed s := by
  intro op hop op' hop' hgrouped hgrouped' hne
  obtain ⟨hsized, hfirst⟩ := isBitSet_first h hop' hgrouped'
  have hsets : op.Sets (runChecks s [op'] (boInitBITOP giFlowbitSize)) := by
    rcases of_decide_eq_true hgrouped with htype | htype
    · exact .inl htype
    · refine .inr ⟨htype, ?_⟩
      rw [← Bool.not_eq_true, hfirst]
      exact hne
  have hset := (isBitSet_sets h hop hsized hsets).2
  constructor
  · intro hsame hcleared
    have hkeeps : Keeps s op op'.id := by
      intro g grp hg
      rw [hcleared] at hg
      cases hg
    have hboth := (hex [op', op] (by
      intro o ho
      rcases List.mem_cons.1 ho with rfl | ho
      · exact hop'
      · rw [List.mem_singleton.1 ho]
        exact hop)).1
    exact hne (hboth op.id op'.id hsame ((hset op.id).2 (.inl rfl))
      ((hset op'.id).2 (.inr ⟨(hfirst op'.id).2 rfl, hkeeps⟩)))
  · intro hkeeps
    have hlocal := (hex [op'] (by
      intro o ho
      rw [List.mem_singleton.1 ho]
      exact hop')).2
    refine (hlocal op hop hgrouped op'.id ?_).resolve_left (Ne.symm hne)
    rw [ne_eq, Bool.eq_iff_iff, hset, hfirst]
    tauto

theorem groupsExclusive_iff (h : Loaded giFlowbitSize s) :
    GroupsExclusive giFlowbitSize s ↔ Agreed s := by
  constructor
  · exact agreed_of_groupsExclusive h
  · intro hagreed ops hops
    have hstart : Reached giFlowbitSize s (boInitBITOP giFlowbitSize) := by
      refine ⟨sized_boInitBITOP giFlowbitSize, ?_, ?_⟩
      · intro c hc
        rw [boIsBitSet_boInitBITOP] at hc
        cases hc
      · intro b c _ hb
        rw [boIsBitSet_boInitBITOP] at hb
        cases hb
    have hreached := reached_runChecks h hagreed ops hops hstart
    exact ⟨hreached.exclusive, hreached.local h hagreed⟩

/-- **Groups are exclusive exactly when they agree**, after all configurations that can be loaded. -/
theorem flowbits_groups_exclusive_iff (giFlowbitSize : ℕ) (order : List Name → List Name)
    (configurations : List (List RuleOption)) (s : State)
    (hload : load giFlowbitSize order configurations = some s) :
    GroupsExclusive giFlowbitSize s ↔ Agreed s :=
  groupsExclusive_iff (loaded_of_load hload)

/-- The options `set,a,g` and `set,b,g`. -/
def twoSets : List (List RuleOption) :=
  [[⟨1, [['s', 'e', 't'], ['a'], ['g']]⟩, ⟨1, [['s', 'e', 't'], ['b'], ['g']]⟩]]

theorem flowbits_two_sets :
    ∃ s, load 1 id twoSets = some s ∧ (GroupsExclusive 1 s ↔ Agreed s) := by
  obtain ⟨s, hs⟩ : ∃ s, load 1 id twoSets = some s := ⟨_, rfl⟩
  exact ⟨s, hs, flowbits_groups_exclusive_iff 1 id twoSets s hs⟩

/-- The options `toggle,a`, `set,a,g` and `set,b,g`. -/
def staleToggle : List (List RuleOption) :=
  [[⟨1, [['t', 'o', 'g', 'g', 'l', 'e'], ['a']]⟩, ⟨1, [['s', 'e', 't'], ['a'], ['g']]⟩,
    ⟨1, [['s', 'e', 't'], ['b'], ['g']]⟩]]

/-- The toggle option was parsed before its bit got the group, and does not clear the other bit. -/
theorem toggle_without_group : ∃ s, load 1 id staleToggle = some s ∧ ¬GroupsExclusive 1 s := by
  obtain ⟨s, hs⟩ : ∃ s, load 1 id staleToggle = some s := ⟨_, rfl⟩
  have hops : (load 1 id staleToggle).map State.ops = some
      [⟨0, .toggle, some ['a'], some defaultFlowbitGroup⟩, ⟨0, .set, some ['a'], some ['g']⟩,
        ⟨1, .set, some ['b'], some ['g']⟩] := rfl
  have ha : (load 1 id staleToggle).map (fun s => s.flowbitsHash.find ['a']) =
      some (some ⟨0, true, some ['g']⟩) := rfl
  have hb : (load 1 id staleToggle).map (fun s => s.flowbitsHash.find ['b']) =
      some (some ⟨1, true, some ['g']⟩) := rfl
  rw [hs] at hops ha hb
  have hops' : s.ops = _ := Option.some.inj hops
  refine ⟨s, hs, ?_⟩
  intro hex
  have hagreed := agreed_of_groupsExclusive (loaded_of_load hs) hex
  have hclash := (hagreed ⟨0, .toggle, some ['a'], some defaultFlowbitGroup⟩ (by rw [hops']; simp)
    ⟨1, .set, some ['b'], some ['g']⟩ (by rw [hops']; simp) rfl rfl (by decide)).1
  exact hclash ⟨['g'], by decide, ⟨['a'], _, Option.some.inj ha, rfl, rfl⟩,
    ['b'], _, Option.some.inj hb, rfl, rfl⟩ rfl

end Snort.Flowbits
