import Snort.Flowbits.Model

/-!
# What parsing keeps

* `Inv`: ids are not shared, and the mask of a group clears the bits of its members;
* `Grows`: objects that are in use stay in use and keep a group that has a name;
* `OpInv`: an option that may have a group has its bit in use, and a copy of its group or of the default;
* **`loaded_of_load`**: this holds whenever configurations have been loaded.
-/

namespace Snort.Flowbits

variable {giFlowbitSize : ℕ}

/-- The invariant of the tables. -/
structure Inv (giFlowbitSize : ℕ) (s : State) : Prop where
  count_le : s.flowbitsCount ≤ giFlowbitSize * 8
  id_lt : ∀ n a, s.flowbitsHash.find n = some a → a.id < s.flowbitsCount
  free_lt : ∀ i ∈ s.flowbitsBitQueue, i < s.flowbitsCount
  free_nodup : s.flowbitsBitQueue.Nodup
  not_free : ∀ n a, s.flowbitsHash.find n = some a → a.id ∉ s.flowbitsBitQueue
  id_inj : ∀ m n a b, s.flowbitsHash.find m = some a → s.flowbitsHash.find n = some b →
    a.id = b.id → m = n
  member : ∀ n a g, s.flowbitsHash.find n = some a → a.group = some g → g ≠ defaultFlowbitGroup →
    ∃ grp, s.flowbitsGrpHash.find g = some grp ∧ boIsBitSet grp.grpBitOp a.id = false
  grp : ∀ g grp, s.flowbitsGrpHash.find g = some grp →
    0 < grp.count ∧ grp.grpBitOp.Sized giFlowbitSize ∧ grp.maxId < giFlowbitSize * 8 ∧
      ∀ c < giFlowbitSize * 8, boIsBitSet grp.grpBitOp c = false → c ≤ grp.maxId

/-- The objects with the toggle `t` of the configuration stay, with their ids and named groups. -/
def Grows (t : Bool) (s s' : State) : Prop :=
  ∀ n a, s.flowbitsHash.find n = some a → a.toggle = t →
    ∃ a', s'.flowbitsHash.find n = some a' ∧ a'.id = a.id ∧ a'.toggle = t ∧
      ∀ g, g ≠ defaultFlowbitGroup → a.group = some g → a'.group = some g

/-- The bit of an option that may have a group is in use with the toggle `t`. -/
def OpInv (t : Bool) (s : State) (op : FlowbitsOp) : Prop :=
  op.type.grouped = true → ∃ n a g, s.flowbitsHash.find n = some a ∧ a.id = op.id ∧ a.toggle = t ∧
    op.group = some g ∧ (g = defaultFlowbitGroup ∨ a.group = some g)

variable {s s' : State} {t : Bool}

theorem Grows.refl (t : Bool) (s : State) : Grows t s s :=
  fun _ a hn ht => ⟨a, hn, rfl, ht, fun _ _ hg => hg⟩

theorem Grows.trans {s'' : State} (h : Grows t s s') (h' : Grows t s' s'') : Grows t s s'' := by
  intro n a hn ht
  obtain ⟨a', hn', hid, ht', hgroup⟩ := h n a hn ht
  obtain ⟨a'', hn'', hid', ht'', hgroup'⟩ := h' n a' hn' ht'
  exact ⟨a'', hn'', hid'.trans hid, ht'', fun g hg ha => hgroup' g hg (hgroup g hg ha)⟩

theorem Grows.opInv (h : Grows t s s') {op : FlowbitsOp} (hop : OpInv t s op) : OpInv t s' op := by
  intro hgrouped
  obtain ⟨n, a, g, hn, hid, ht, hg, hag⟩ := hop hgrouped
  obtain ⟨a', hn', hid', ht', hgroup⟩ := h n a hn ht
  refine ⟨n, a', g, hn', hid'.trans hid, ht', hg, ?_⟩
  by_cases hdef : g = defaultFlowbitGroup
  · exact .inl hdef
  · exact .inr (hgroup g hdef (hag.resolve_left hdef))

/-! ### Objects -/

/-- An object is put into the table: a new one with a free id, or one that was there. -/
theorem Inv.insert (h : Inv giFlowbitSize s) {name : Name} {item : FlowbitsObject}
    (hlt : item.id < s.flowbitsCount) (hfree : item.id ∉ s.flowbitsBitQueue)
    (hother : ∀ n a, n ≠ name → s.flowbitsHash.find n = some a → a.id ≠ item.id)
    (hmember : ∀ g, item.group = some g → g ≠ defaultFlowbitGroup →
      ∃ grp, s.flowbitsGrpHash.find g = some grp ∧ boIsBitSet grp.grpBitOp item.id = false) :
    Inv giFlowbitSize { s with flowbitsHash := s.flowbitsHash.insert name item } := by
  have hfind : ∀ n a, (s.flowbitsHash.insert name item).find n = some a →
      n = name ∧ a = item ∨ n ≠ name ∧ s.flowbitsHash.find n = some a := by
    intro n a hn
    by_cases hname : n = name
    · subst hname
      rw [Table.find_insert_self] at hn
      exact .inl ⟨rfl, (Option.some.inj hn).symm⟩
    · rw [Table.find_insert_of_ne _ _ hname] at hn
      exact .inr ⟨hname, hn⟩
  constructor
  · exact h.count_le
  · intro n a hn
    rcases hfind n a hn with ⟨-, rfl⟩ | ⟨-, hn⟩
    · exact hlt
    · exact h.id_lt n a hn
  · exact h.free_lt
  · exact h.free_nodup
  · intro n a hn
    rcases hfind n a hn with ⟨-, rfl⟩ | ⟨-, hn⟩
    · exact hfree
    · exact h.not_free n a hn
  · intro m n a b hm hn hab
    rcases hfind m a hm with ⟨rfl, rfl⟩ | ⟨hmne, hm'⟩
    · rcases hfind n b hn with ⟨rfl, -⟩ | ⟨hnne, hn'⟩
      · rfl
      · exact absurd hab.symm (hother n b hnne hn')
    · rcases hfind n b hn with ⟨rfl, rfl⟩ | ⟨hnne, hn'⟩
      · exact absurd hab (hother m a hmne hm')
      · exact h.id_inj m n a b hm' hn' hab
  · intro n a g hn hg hdef
    rcases hfind n a hn with ⟨-, rfl⟩ | ⟨-, hn⟩
    · exact hmember g hg hdef
    · exact h.member n a g hn hg hdef
  · exact h.grp

/-- The object for a name. -/
structure Found (s s' : State) (name : Name) (item : FlowbitsObject) : Prop where
  find : s'.flowbitsHash.find name = some item
  toggle : item.toggle = s.flowbitsToggle
  toggle_eq : s'.flowbitsToggle = s.flowbitsToggle
  ops : s'.ops = s.ops
  grows : Grows s.flowbitsToggle s s'

theorem found_of_findItem (h : Inv giFlowbitSize s) {name : Name} {item : FlowbitsObject}
    (hitem : findItem giFlowbitSize name s = some (s', item)) :
    Inv giFlowbitSize s' ∧ Found s s' name item := by
  have hgrows : s.flowbitsHash.find name = none → ∀ item' : FlowbitsObject, ∀ s'' : State,
      s''.flowbitsHash = s.flowbitsHash.insert name item' → Grows s.flowbitsToggle s s'' := by
    intro hnone item' s'' hs'' n a hn ht
    have hne : n ≠ name := by
      rintro rfl
      rw [hnone] at hn
      cases hn
    exact ⟨a, by rw [hs'', Table.find_insert_of_ne _ _ hne, hn], rfl, ht, fun g _ hg => hg⟩
  unfold findItem at hitem
  cases hfind : s.flowbitsHash.find name with
  | some item' =>
    rw [hfind] at hitem
    simp only [Option.some.injEq, Prod.mk.injEq] at hitem
    obtain ⟨rfl, rfl⟩ := hitem
    constructor
    · exact h.insert (h.id_lt name item' hfind) (h.not_free name item' hfind)
        (fun n a hne hn hid => hne (h.id_inj n name a item' hn hfind hid))
        (fun g hg hdef => h.member name item' g hfind hg hdef)
    · refine ⟨Table.find_insert_self .., rfl, rfl, rfl, ?_⟩
      intro n a hn ht
      by_cases hne : n = name
      · subst hne
        rw [hfind] at hn
        cases hn
        exact ⟨_, Table.find_insert_self .., rfl, rfl, fun g _ hg => hg⟩
      · exact ⟨a, (Table.find_insert_of_ne _ _ hne).trans hn, rfl, ht, fun g _ hg => hg⟩
  | none =>
    rw [hfind] at hitem
    cases hqueue : s.flowbitsBitQueue with
    | cons id queue =>
      rw [hqueue] at hitem
      simp only [Option.some.injEq, Prod.mk.injEq] at hitem
      obtain ⟨rfl, rfl⟩ := hitem
      have hnodup := h.free_nodup
      rw [hqueue, List.nodup_cons] at hnodup
      have hid : id ∈ s.flowbitsBitQueue := by
        rw [hqueue]
        exact List.mem_cons_self
      have hsub : ∀ i ∈ queue, i ∈ s.flowbitsBitQueue := by
        intro i hi
        rw [hqueue]
        exact List.mem_cons_of_mem _ hi
      have hinv : Inv giFlowbitSize { s with flowbitsBitQueue := queue } :=
        ⟨h.count_le, h.id_lt, fun i hi => h.free_lt i (hsub i hi), hnodup.2,
          fun n a hn hmem => h.not_free n a hn (hsub _ hmem), h.id_inj, h.member, h.grp⟩
      constructor
      · refine @Inv.insert giFlowbitSize { s with flowbitsBitQueue := queue } hinv name
          ⟨id, s.flowbitsToggle, none⟩ (h.free_lt id hid) hnodup.1 ?_ ?_
        · rintro n a - hn rfl
          exact h.not_free n a hn hid
        · intro g hg
          cases hg
      · exact ⟨Table.find_insert_self .., rfl, rfl, rfl, hgrows hfind _ _ rfl⟩
    | nil =>
      rw [hqueue] at hitem
      by_cases hmax : giFlowbitSize * 8 < s.flowbitsCount + 1
      · simp [hmax] at hitem
      · simp only [if_neg hmax, Option.some.injEq, Prod.mk.injEq] at hitem
        obtain ⟨rfl, rfl⟩ := hitem
        have hinv : Inv giFlowbitSize
            { s with flowbitsBitQueue := [], flowbitsCount := s.flowbitsCount + 1 } :=
          ⟨not_lt.1 hmax, fun n a hn => (h.id_lt n a hn).trans (Nat.lt_succ_self _),
            List.forall_mem_nil _, List.nodup_nil, fun n a _ => List.not_mem_nil, h.id_inj, h.member,
            h.grp⟩
        constructor
        · refine @Inv.insert giFlowbitSize
            { s with flowbitsBitQueue := [], flowbitsCount := s.flowbitsCount + 1 } hinv name
            ⟨s.flowbitsCount, s.flowbitsToggle, none⟩ (Nat.lt_succ_self _) List.not_mem_nil ?_ ?_
          · intro n a _ hn hid
            have hlt : a.id < s.flowbitsCount := h.id_lt n a hn
            exact absurd hid hlt.ne
          · intro g hg
            cases hg
        · exact ⟨Table.find_insert_self .., rfl, rfl, rfl, hgrows hfind _ _ rfl⟩

/-! ### Groups -/

theorem ensureGrp_eq {token : Name} {grps : Table Name FlowbitsGrp}
    (h : token ≠ defaultFlowbitGroup → ∃ grp, grps.find token = some grp) :
    ensureGrp giFlowbitSize token grps = grps := by
  unfold ensureGrp
  cases hfind : grps.find token with
  | some grp => rfl
  | none =>
    by_cases hdef : token = defaultFlowbitGroup
    · exact if_pos hdef
    · obtain ⟨grp, hgrp⟩ := h hdef
      rw [hfind] at hgrp
      cases hgrp

/-- A bit joins a group, which may be new. -/
theorem find_joinGrp {token : Name} (hdef : token ≠ defaultFlowbitGroup) (grps : Table Name FlowbitsGrp)
    (id : ℕ) :
    (joinGrp token id (ensureGrp giFlowbitSize token grps)).find =
      Function.update grps.find token
        (some (((grps.find token).getD (newGrp giFlowbitSize)).join id)) := by
  unfold joinGrp ensureGrp
  cases hfind : grps.find token with
  | some grp =>
    simp only [hfind]
    rfl
  | none =>
    simp only [if_neg hdef, Table.find_insert_self, Table.find_insert, Function.update_idem]
    rfl

theorem boIsBitSet_join_eq_false (grp : FlowbitsGrp) (id c : ℕ) :
    boIsBitSet (grp.join id).grpBitOp c = false ↔ c = id ∨ boIsBitSet grp.grpBitOp c = false := by
  rw [← Bool.not_eq_true, ← Bool.not_eq_true, FlowbitsGrp.join, boIsBitSet_boClearBit]
  tauto

/-- A bit joins a group. -/
theorem Inv.join (h : Inv giFlowbitSize s) {token : Name} {id : ℕ} (hid : id < giFlowbitSize * 8)
    {grps : Table Name FlowbitsGrp}
    (hgrps : grps.find = Function.update s.flowbitsGrpHash.find token
      (some (((s.flowbitsGrpHash.find token).getD (newGrp giFlowbitSize)).join id))) :
    Inv giFlowbitSize { s with flowbitsGrpHash := grps } := by
  refine ⟨h.count_le, h.id_lt, h.free_lt, h.free_nodup, h.not_free, h.id_inj, ?_, ?_⟩
  · intro n a g hn hg hdef
    obtain ⟨grp, hgrp, hbit⟩ := h.member n a g hn hg hdef
    show ∃ grp, grps.find g = some grp ∧ _
    rw [hgrps]
    by_cases htoken : g = token
    · subst htoken
      rw [Function.update_self, hgrp]
      exact ⟨_, rfl, (boIsBitSet_join_eq_false _ _ _).2 (.inr hbit)⟩
    · rw [Function.update_of_ne htoken]
      exact ⟨grp, hgrp, hbit⟩
  · intro g grp hg
    have hg' : grps.find g = some grp := hg
    rw [hgrps] at hg'
    by_cases htoken : g = token
    · subst htoken
      rw [Function.update_self] at hg'
      cases hg'
      -- a new group has no members, an old one keeps those below its greatest id
      have hold : ((s.flowbitsGrpHash.find g).getD (newGrp giFlowbitSize)).grpBitOp.Sized giFlowbitSize ∧
          ((s.flowbitsGrpHash.find g).getD (newGrp giFlowbitSize)).maxId < giFlowbitSize * 8 ∧
          ∀ c < giFlowbitSize * 8,
            boIsBitSet ((s.flowbitsGrpHash.find g).getD (newGrp giFlowbitSize)).grpBitOp c = false →
              c ≤ ((s.flowbitsGrpHash.find g).getD (newGrp giFlowbitSize)).maxId := by
        cases hfind : s.flowbitsGrpHash.find g with
        | some grp => exact (h.grp g grp hfind).2
        | none =>
          refine ⟨⟨rfl, rfl⟩, lt_of_le_of_lt (Nat.zero_le id) hid, ?_⟩
          intro c hc hbit
          have hset := (boIsBitSet_boSetAllBits (sized_boInitBITOP giFlowbitSize) c).2 hc
          exact absurd (hset.symm.trans hbit) (by decide)
      generalize (s.flowbitsGrpHash.find g).getD (newGrp giFlowbitSize) = grp at *
      obtain ⟨hsized, hmax, hbits⟩ := hold
      refine ⟨Nat.succ_pos _, hsized.boClearBit id, ?_, ?_⟩
      · unfold FlowbitsGrp.join
        simp only
        split <;> omega
      · intro c hc hbit
        have hle : c = id ∨ c ≤ grp.maxId :=
          ((boIsBitSet_join_eq_false _ _ _).1 hbit).imp_right (hbits c hc)
        unfold FlowbitsGrp.join
        simp only
        split <;> omega
    · rw [Function.update_of_ne htoken] at hg'
      exact h.grp g grp hg'

/-- The group of the object for a name has been set. -/
structure Grouped (s s' : State) (name : Name) (item : FlowbitsObject) (group : Name) : Prop where
  find : ∃ item', s'.flowbitsHash.find name = some item' ∧ item'.id = item.id ∧
    item'.toggle = item.toggle ∧ item'.group = some group
  toggle_eq : s'.flowbitsToggle = s.flowbitsToggle
  ops : s'.ops = s.ops
  grows : ∀ t, Grows t s s'

theorem grouped_of_setGroup (h : Inv giFlowbitSize s) {name token group : Name} {item : FlowbitsObject}
    (hfind : s.flowbitsHash.find name = some item)
    (hset : setGroup giFlowbitSize name token item s = some (s', group)) :
    Inv giFlowbitSize s' ∧ Grouped s s' name item group := by
  have hid : item.id < giFlowbitSize * 8 := (h.id_lt name item hfind).trans_le h.count_le
  have hother : ∀ n a, n ≠ name → s.flowbitsHash.find n = some a → a.id ≠ item.id :=
    fun n a hne hn heq => hne (h.id_inj n name a item hn hfind heq)
  -- the object that joins a group had none with a name
  have hjoined : (∀ g, item.group = some g → g = defaultFlowbitGroup) →
      ∀ s'', s'' = { s with
        flowbitsHash := s.flowbitsHash.insert name { item with group := some token }
        flowbitsGrpHash := if token = defaultFlowbitGroup then
            ensureGrp giFlowbitSize token s.flowbitsGrpHash
          else joinGrp token item.id (ensureGrp giFlowbitSize token s.flowbitsGrpHash) } →
      Inv giFlowbitSize s'' ∧ Grouped s s'' name item token := by
    rintro hnone s'' rfl
    constructor
    · by_cases hdef : token = defaultFlowbitGroup
      · rw [if_pos hdef, ensureGrp_eq (fun hne => absurd hdef hne)]
        refine h.insert (h.id_lt name item hfind) (h.not_free name item hfind) hother ?_
        intro g hg hgdef
        exact absurd ((Option.some.inj hg).symm.trans hdef) hgdef
      · rw [if_neg hdef]
        have hgrps := @find_joinGrp giFlowbitSize token hdef s.flowbitsGrpHash item.id
        refine (h.join hid hgrps).insert (h.id_lt name item hfind) (h.not_free name item hfind) hother ?_
        intro g hg _
        cases hg
        refine ⟨_, by rw [hgrps, Function.update_self], ?_⟩
        exact (boIsBitSet_join_eq_false _ _ _).2 (.inl rfl)
    · refine ⟨⟨_, Table.find_insert_self .., rfl, rfl, rfl⟩, rfl, rfl, ?_⟩
      intro t n a hn ht
      by_cases hne : n = name
      · subst hne
        rw [hfind] at hn
        cases hn
        exact ⟨_, Table.find_insert_self .., rfl, ht, fun g hdef hg => absurd (hnone g hg) hdef⟩
      · exact ⟨a, (Table.find_insert_of_ne _ _ hne).trans hn, rfl, ht, fun g _ hg => hg⟩
  have hkept : ∀ g, item.group = some g → (token = defaultFlowbitGroup ∨ token = g) →
      ∀ s'', s'' = { s with
        flowbitsGrpHash := ensureGrp giFlowbitSize token s.flowbitsGrpHash } →
      Inv giFlowbitSize s'' ∧ Grouped s s'' name item g := by
    rintro g hg htoken s'' rfl
    rw [ensureGrp_eq]
    · exact ⟨h, ⟨item, hfind, rfl, rfl, hg⟩, rfl, rfl, fun t => Grows.refl t s⟩
    · intro hdef
      obtain rfl := htoken.resolve_left hdef
      obtain ⟨grp, hgrp, -⟩ := h.member name item token hfind hg hdef
      exact ⟨grp, hgrp⟩
  unfold setGroup at hset
  cases hgroup : item.group with
  | none =>
    simp only [hgroup, Option.some.injEq, Prod.mk.injEq] at hset
    obtain ⟨hs, rfl⟩ := hset
    exact hjoined (fun g hg => by rw [hgroup] at hg; cases hg) s' hs.symm
  | some g =>
    simp only [hgroup] at hset
    by_cases hsame : g = token
    · simp only [if_pos hsame, Option.some.injEq, Prod.mk.injEq] at hset
      obtain ⟨hs, rfl⟩ := hset
      exact hkept g hgroup (.inr hsame.symm) s' hs.symm
    · rw [if_neg hsame] at hset
      by_cases hgdef : g = defaultFlowbitGroup
      · simp only [if_pos hgdef, Option.some.injEq, Prod.mk.injEq] at hset
        obtain ⟨hs, rfl⟩ := hset
        exact hjoined (fun g' hg' => by rw [hgroup] at hg'; cases hg'; exact hgdef) s' hs.symm
      · rw [if_neg hgdef] at hset
        by_cases hdef : token = defaultFlowbitGroup
        · simp only [if_pos hdef, Option.some.injEq, Prod.mk.injEq] at hset
          obtain ⟨hs, rfl⟩ := hset
          exact hkept g hgroup (.inl hdef) s' hs.symm
        · simp [hdef] at hset

/-! ### Options -/

/-- What an option does to the tables. -/
structure Parsed (giFlowbitSize : ℕ) (s s' : State) : Prop where
  inv : Inv giFlowbitSize s'
  toggle_eq : s'.flowbitsToggle = s.flowbitsToggle
  ops : s'.ops = s.ops
  grows : Grows s.flowbitsToggle s s'

theorem parsed_of_flowBitsParse (h : Inv giFlowbitSize s) {toks : List Name} {op : FlowbitsOp}
    (hparse : flowBitsParse giFlowbitSize toks s = some (s', op)) :
    Parsed giFlowbitSize s s' ∧ OpInv s.flowbitsToggle s' op := by
  unfold flowBitsParse at hparse
  cases toks with
  | nil => cases hparse
  | cons token toks =>
    obtain ⟨type, htype, hparse⟩ := Option.bind_eq_some_iff.1 hparse
    by_cases hnone : type = .noalert ∨ type = .reset
    · rw [if_pos hnone] at hparse
      split at hparse
      · cases hparse
      · cases hparse
        refine ⟨⟨h, rfl, rfl, Grows.refl _ s⟩, ?_⟩
        intro hgrouped
        rcases hnone with rfl | rfl
        · cases hgrouped
        · cases hgrouped
    · rw [if_neg hnone] at hparse
      cases toks with
      | nil => cases hparse
      | cons token toks =>
        obtain ⟨name, -, hparse⟩ := Option.bind_eq_some_iff.1 hparse
        obtain ⟨⟨s₁, item⟩, hitem, hparse⟩ := Option.bind_eq_some_iff.1 hparse
        obtain ⟨hinv₁, hfound⟩ := found_of_findItem h hitem
        obtain ⟨token, htoken, hparse⟩ := Option.bind_eq_some_iff.1 hparse
        cases token with
        | none =>
          cases hparse
          refine ⟨⟨hinv₁, hfound.toggle_eq, hfound.ops, hfound.grows⟩, ?_⟩
          intro hgrouped
          have hgrouped' : type.grouped = true := hgrouped
          cases toks with
          | nil => simp [groupToken, hgrouped'] at htoken
          | cons t toks => simp [groupToken, hgrouped'] at htoken
        | some token =>
          obtain ⟨⟨s₂, group⟩, hset, hparse⟩ := Option.bind_eq_some_iff.1 hparse
          cases hparse
          obtain ⟨hinv₂, hgrouped⟩ := grouped_of_setGroup hinv₁ hfound.find hset
          obtain ⟨item', hitem', hid, htoggle, hgroup⟩ := hgrouped.find
          refine ⟨⟨hinv₂, hgrouped.toggle_eq.trans hfound.toggle_eq, hgrouped.ops.trans hfound.ops,
            hfound.grows.trans (hgrouped.grows _)⟩, ?_⟩
          exact fun _ => ⟨name, item', group, hitem', hid, htoggle.trans hfound.toggle, rfl, .inr hgroup⟩

theorem opInv_sync {dup op : FlowbitsOp} (hsame : dup.same op = true) (hdup : OpInv t s dup)
    (hop : OpInv t s op) : OpInv t s (dup.sync op) := by
  have hsame' : dup.id = op.id ∧ dup.type = op.type := of_decide_eq_true hsame
  unfold FlowbitsOp.sync
  split
  · rename_i g g' hg hg'
    intro hgrouped
    have hgrouped' : op.type.grouped = true := by
      rw [← hsame'.2]
      exact hgrouped
    obtain ⟨n, a, g'', hn, hid, ht, hg'', hag⟩ := hop hgrouped'
    exact ⟨n, a, g'', hn, hid.trans hsame'.1.symm, ht, hg'.symm.trans hg'', hag⟩
  · exact hdup

theorem opInv_addOption {op : FlowbitsOp} {ops : List FlowbitsOp} (hops : ∀ o ∈ ops, OpInv t s o)
    (hop : OpInv t s op) : ∀ o ∈ addOption op ops, OpInv t s o := by
  intro o ho
  unfold addOption at ho
  split at ho
  · obtain ⟨dup, hdup, rfl⟩ := List.mem_map.1 ho
    by_cases hsame : dup.same op = true
    · rw [if_pos hsame]
      exact opInv_sync hsame (hops dup hdup) hop
    · rw [if_neg hsame]
      exact hops dup hdup
  · rcases List.mem_append.1 ho with ho | ho
    · exact hops o ho
    · rw [List.mem_singleton.1 ho]
      exact hop

/-- The options of a configuration that is parsed have their bits in use. -/
structure Parsing (giFlowbitSize : ℕ) (t : Bool) (s : State) : Prop where
  inv : Inv giFlowbitSize s
  toggle_eq : s.flowbitsToggle = t
  ops : ∀ o ∈ s.ops, OpInv t s o

theorem Parsing.flowBitsInit (h : Parsing giFlowbitSize t s) {opt : RuleOption}
    (hinit : flowBitsInit giFlowbitSize s opt = some s') : Parsing giFlowbitSize t s' := by
  unfold Flowbits.flowBitsInit at hinit
  split at hinit
  · cases hinit
    exact h
  · obtain ⟨⟨s₁, op⟩, hparse, rfl⟩ := Option.map_eq_some_iff.1 hinit
    obtain ⟨hparsed, hop⟩ := parsed_of_flowBitsParse h.inv hparse
    rw [h.toggle_eq] at hop
    have hgrows : Grows t s s₁ := h.toggle_eq ▸ hparsed.grows
    have hinv := hparsed.inv
    refine ⟨⟨hinv.count_le, hinv.id_lt, hinv.free_lt, hinv.free_nodup, hinv.not_free, hinv.id_inj,
      hinv.member, hinv.grp⟩, hparsed.toggle_eq.trans h.toggle_eq, ?_⟩
    refine @opInv_addOption s₁ t op s₁.ops ?_ hop
    intro o ho
    rw [hparsed.ops] at ho
    exact hgrows.opInv (h.ops o ho)

theorem Parsing.foldlM {options : List RuleOption} (h : Parsing giFlowbitSize t s)
    (hrun : options.foldlM (Flowbits.flowBitsInit giFlowbitSize) s = some s') :
    Parsing giFlowbitSize t s' := by
  induction options generalizing s with
  | nil =>
    cases hrun
    exact h
  | cons opt options ih =>
    rw [List.foldlM_cons] at hrun
    obtain ⟨s₁, hinit, hrun⟩ := Option.bind_eq_some_iff.1 hrun
    exact ih (h.flowBitsInit hinit) hrun

/-! ### Verification -/

theorem Parsing.verifyItem (h : Parsing giFlowbitSize t s) (name : Name) :
    Parsing giFlowbitSize t (verifyItem s name) := by
  unfold Flowbits.verifyItem
  cases hfind : s.flowbitsHash.find name with
  | none => exact h
  | some fb =>
    simp only
    split
    · rename_i htoggle
      have hinv := h.inv
      have hleft : ∀ n a, (s.flowbitsHash.remove name).find n = some a →
          n ≠ name ∧ s.flowbitsHash.find n = some a := fun n a hn => Table.find_of_find_remove hn
      refine ⟨⟨hinv.count_le, ?_, ?_, ?_, ?_, ?_, ?_, hinv.grp⟩, h.toggle_eq, ?_⟩
      · exact fun n a hn => hinv.id_lt n a (hleft n a hn).2
      · intro i hi
        rcases List.mem_append.1 hi with hi | hi
        · exact hinv.free_lt i hi
        · rw [List.mem_singleton.1 hi]
          exact hinv.id_lt name fb hfind
      · exact hinv.free_nodup.append (List.nodup_singleton _)
          (List.disjoint_singleton.2 (hinv.not_free name fb hfind))
      · intro n a hn hmem
        obtain ⟨hne, hn⟩ := hleft n a hn
        rcases List.mem_append.1 hmem with hmem | hmem
        · exact hinv.not_free n a hn hmem
        · exact hne (hinv.id_inj n name a fb hn hfind (List.mem_singleton.1 hmem))
      · exact fun m n a b hm hn => hinv.id_inj m n a b (hleft m a hm).2 (hleft n b hn).2
      · exact fun n a g hn => hinv.member n a g (hleft n a hn).2
      · intro o ho hgrouped
        obtain ⟨n, a, g, hn, hid, ht, hg⟩ := h.ops o ho hgrouped
        refine ⟨n, a, g, ?_, hid, ht, hg⟩
        have hne : n ≠ name := by
          rintro rfl
          rw [hfind] at hn
          cases hn
          exact htoggle (ht.trans h.toggle_eq.symm)
        exact (Table.find_remove_of_ne _ hne).trans hn
    · exact h

/-- What holds when a configuration has been loaded. -/
structure Loaded (giFlowbitSize : ℕ) (s : State) : Prop where
  inv : Inv giFlowbitSize s
  ops : ∃ t, ∀ o ∈ s.ops, OpInv t s o

theorem Parsing.flowBitsVerify (h : Parsing giFlowbitSize t s) (order : List Name → List Name) :
    Loaded giFlowbitSize (flowBitsVerify order s) := by
  have hrun : ∀ (names : List Name) (s : State), Parsing giFlowbitSize t s →
      Parsing giFlowbitSize t (names.foldl Flowbits.verifyItem s) := by
    intro names
    induction names with
    | nil => exact fun s h => h
    | cons name names ih => exact fun s h => ih _ (h.verifyItem name)
  have hend := hrun (order s.flowbitsHash.keys) s h
  have hinv := hend.inv
  exact ⟨⟨hinv.count_le, hinv.id_lt, hinv.free_lt, hinv.free_nodup, hinv.not_free, hinv.id_inj,
    hinv.member, hinv.grp⟩, t, hend.ops⟩

theorem Loaded.loadConfiguration (h : Loaded giFlowbitSize s) {order : List Name → List Name}
    {options : List RuleOption} (hload : loadConfiguration giFlowbitSize order s options = some s') :
    Loaded giFlowbitSize s' := by
  obtain ⟨s₁, hrun, rfl⟩ := Option.map_eq_some_iff.1 hload
  have hinv := h.inv
  have hstart : Parsing giFlowbitSize s.flowbitsToggle { s with ops := [] } :=
    ⟨⟨hinv.count_le, hinv.id_lt, hinv.free_lt, hinv.free_nodup, hinv.not_free, hinv.id_inj,
      hinv.member, hinv.grp⟩, rfl, List.forall_mem_nil _⟩
  exact (hstart.foldlM hrun).flowBitsVerify order

/-- **Whatever configurations have been loaded.** -/
theorem loaded_of_load {order : List Name → List Name} {configurations : List (List RuleOption)}
    (hload : load giFlowbitSize order configurations = some s) : Loaded giFlowbitSize s := by
  have hrun : ∀ (cs : List (List RuleOption)) (s₀ : State), Loaded giFlowbitSize s₀ →
      cs.foldlM (Flowbits.loadConfiguration giFlowbitSize order) s₀ = some s →
      Loaded giFlowbitSize s := by
    intro cs
    induction cs with
    | nil =>
      intro s₀ h hs
      cases hs
      exact h
    | cons c cs ih =>
      intro s₀ h hs
      rw [List.foldlM_cons] at hs
      obtain ⟨s₁, hc, hs⟩ := Option.bind_eq_some_iff.1 hs
      exact ih s₁ (h.loadConfiguration hc) hs
  refine hrun configurations _ ⟨?_, true, List.forall_mem_nil _⟩ hload
  refine ⟨Nat.zero_le _, ?_, List.forall_mem_nil _, List.nodup_nil, ?_, ?_, ?_, ?_⟩
  · intro n a hn
    cases hn
  · intro n a hn
    cases hn
  · intro m n a b hm
    cases hm
  · intro n a g hn
    cases hn
  · intro g grp hg
    cases hg

end Snort.Flowbits
