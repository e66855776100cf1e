import Snort.Lib.MaximalRuns
import Snort.Ports.Model

/-!
# Normalised port objects

* `parray_portsOf`: the array of an object holds its ports, and all ports when it has no items at all;
* `itemsFrom_eq`: the items of an array are its maximal runs;
* `portSet_items`, `hasPort_items`, `itemsEqual_items_iff`: what such items denote;
* `Canonical`: normalising is faithful and canonical, and the operations are those of sets;
* **`canonical_iff`**: this holds if and only if neither object denotes the empty set.
-/

namespace Snort.Ports

open MaximalRuns

variable {po a b : PortObject} {items : List PortObjectItem} {poi : PortObjectItem} {p : ℕ}

/-! ### Arrays -/

theorem mem_ports_lt (h : p ∈ poi.ports) : p < maxPorts := by
  have hl := poi.lport.toNat_lt
  have hh := poi.hport.toNat_lt
  unfold PortObjectItem.ports at h
  unfold maxPorts
  cases htype : poi.type <;> simp [htype] at h <;> omega

theorem parray_foldl_switch (on : Bool) (ports : List ℕ) (arr : PortArray) :
    (ports.foldl (PortArray.switch on) arr).parray p = if p ∈ ports then on else arr.parray p := by
  induction ports generalizing arr with
  | nil => simp
  | cons q ports ih =>
    rw [List.foldl_cons, ih]
    by_cases hp : p ∈ ports
    · simp [hp]
    · by_cases hq : p = q
      · simp [hq, PortArray.switch]
      · simp [hp, hq, PortArray.switch]

/-- The ports of the items with a flag are switched, and no others. -/
theorem parray_switchItems (on flag : Bool) (items : List PortObjectItem) (arr : PortArray) :
    (arr.switchItems on flag items).parray p =
      if ∃ poi ∈ items, poi.notFlag = flag ∧ p ∈ poi.ports then on else arr.parray p := by
  unfold PortArray.switchItems
  induction items generalizing arr with
  | nil => simp
  | cons poi items ih =>
    rw [List.foldl_cons, ih]
    by_cases hrest : ∃ poi ∈ items, poi.notFlag = flag ∧ p ∈ poi.ports
    · simp [hrest]
    · by_cases hflag : poi.notFlag = flag
      · simp [hrest, hflag, parray_foldl_switch]
      · simp [hrest, hflag]

theorem countP_notFlag_iff : items.length = items.countP (·.notFlag) ↔ ∀ poi ∈ items, poi.notFlag = true := by
  rw [eq_comm, List.countP_eq_length]

/-- The array of an object without any port: its ports, and all ports when it has no items. -/
theorem parray_portsOf (hany : portObjectHasAny po = false) :
    (portsOf po).parray p = true ↔ p ∈ portSet po.itemList ∨ po.itemList = [] ∧ p < maxPorts := by
  have hpos : (∃ poi ∈ po.itemList, poi.notFlag = false ∧ p ∈ poi.ports) → p < maxPorts := by
    rintro ⟨poi, -, -, hp⟩
    exact mem_ports_lt hp
  unfold portsOf portObjectCharPortArray
  simp only [hany, Bool.false_eq_true, if_false, countP_notFlag_iff]
  by_cases hnot : ∀ poi ∈ po.itemList, poi.notFlag = true
  · rw [if_pos hnot, Option.getD_some, parray_switchItems]
    by_cases hnil : po.itemList = []
    · simp [hnil, portSet, PortArray.enableAll, PortArray.switchItems, newPortArray]
    · have hpositive : ¬∃ poi ∈ po.itemList, poi.notFlag = false ∧ p ∈ poi.ports := by
        rintro ⟨poi, hpoi, hflag, -⟩
        simp [hnot poi hpoi] at hflag
      by_cases hneg : ∃ poi ∈ po.itemList, poi.notFlag = true ∧ p ∈ poi.ports
      · have hmem : p ∉ portSet po.itemList := by
          rintro ⟨-, -, hfree⟩
          obtain ⟨poi, hpoi, hflag, hp⟩ := hneg
          exact hfree poi hpoi hflag hp
        simp [hneg, hmem, hnil]
      · have hfree : ∀ poi ∈ po.itemList, poi.notFlag = true → p ∉ poi.portSet :=
          fun poi hpoi hflag hp => hneg ⟨poi, hpoi, hflag, hp⟩
        have hmem : p ∈ portSet po.itemList ↔ p < maxPorts :=
          ⟨fun h => h.1, fun h => ⟨h, .inr ⟨hnil, hnot⟩, hfree⟩⟩
        rw [if_neg hneg, hmem]
        simp only [PortArray.enableAll, parray_switchItems, newPortArray, hneg, hpositive, hnil, if_false,
          false_and, or_false]
        split <;> simp [*]
  · have hnil : po.itemList ≠ [] := by
      rintro hnil
      simp [hnil] at hnot
    rw [if_neg hnot, Option.getD_some, parray_switchItems, parray_switchItems]
    by_cases hneg : ∃ poi ∈ po.itemList, poi.notFlag = true ∧ p ∈ poi.ports
    · have hmem : p ∉ portSet po.itemList := by
        rintro ⟨-, -, hfree⟩
        obtain ⟨poi, hpoi, hflag, hp⟩ := hneg
        exact hfree poi hpoi hflag hp
      simp [hneg, hmem, hnil]
    · have hfree : ∀ poi ∈ po.itemList, poi.notFlag = true → p ∉ poi.portSet :=
        fun poi hpoi hflag hp => hneg ⟨poi, hpoi, hflag, hp⟩
      have hmem : p ∈ portSet po.itemList ↔ ∃ poi ∈ po.itemList, poi.notFlag = false ∧ p ∈ poi.ports := by
        constructor
        · rintro ⟨-, hpositive | ⟨-, hall⟩, -⟩
          · exact hpositive
          · exact absurd hall hnot
        · exact fun h => ⟨hpos h, .inl h, hfree⟩
      rw [if_neg hneg, hmem]
      by_cases hpositive : ∃ poi ∈ po.itemList, poi.notFlag = false ∧ p ∈ poi.ports
      · simp [hpositive]
      · simp [hpositive, hnil, newPortArray]

/-! ### The items of an array -/

theorem itemsFrom_eq (parray : ℕ → Bool) (left i : ℕ) (lport : Option ℕ) :
    itemsFrom parray left i lport = (runs parray left i lport).map fun r => newItem r.1 r.2 := by
  induction left generalizing i lport with
  | zero => cases lport <;> rfl
  | succ left ih =>
    cases lport with
    | none =>
      simp only [itemsFrom, runs, ih]
      split <;> rfl
    | some lport =>
      simp only [itemsFrom, runs, ih]
      split <;> rfl

theorem portObjectItemList_eq (parray : ℕ → Bool) :
    portObjectItemListFromCharPortArray parray maxPorts =
      (runs parray maxPorts 0 none).map fun r => newItem r.1 r.2 :=
  itemsFrom_eq parray maxPorts 0 none

theorem bounds_of_mem_runs {parray : ℕ → Bool} {r : ℕ × ℕ} (h : r ∈ runs parray maxPorts 0 none) :
    r.1 ≤ r.2 ∧ r.2 < maxPorts := by
  have := bounds_of_mem open_none h
  omega

theorem toNat_ofNat {n : ℕ} (h : n < maxPorts) : (UInt16.ofNat n).toNat = n :=
  UInt16.toNat_ofNat_of_lt' h

@[simp] theorem newItem_notFlag (l h : ℕ) : (newItem l h).notFlag = false := by
  unfold newItem
  split <;> rfl

theorem newItem_type_ne (l h : ℕ) : (newItem l h).type ≠ .any := by
  unfold newItem
  split <;> simp

theorem mem_ports_newItem {l h : ℕ} (hle : l ≤ h) (hlt : h < maxPorts) :
    p ∈ (newItem l h).ports ↔ l ≤ p ∧ p ≤ h := by
  unfold newItem
  split
  · rename_i heq
    subst heq
    simp only [PortObjectItem.ports, List.mem_singleton, toNat_ofNat hlt]
    omega
  · simp only [PortObjectItem.ports, List.mem_range'_1, toNat_ofNat hlt, toNat_ofNat (hle.trans_lt hlt)]
    omega

/-- The items of an array have its ports. -/
theorem mem_items_iff (parray : ℕ → Bool) :
    (∃ poi ∈ portObjectItemListFromCharPortArray parray maxPorts, p ∈ poi.ports) ↔
      p < maxPorts ∧ parray p = true := by
  have hruns := mem_runs_none_iff parray maxPorts 0 p
  simp only [Nat.zero_le, true_and, Nat.zero_add] at hruns
  rw [← hruns, portObjectItemList_eq]
  simp only [List.mem_map, exists_exists_and_eq_and]
  refine exists_congr fun r => and_congr_right fun hr => ?_
  obtain ⟨hle, hlt⟩ := bounds_of_mem_runs hr
  exact mem_ports_newItem hle hlt

theorem notFlag_items {parray : ℕ → Bool}
    (h : poi ∈ portObjectItemListFromCharPortArray parray maxPorts) : poi.notFlag = false ∧ poi.type ≠ .any := by
  rw [portObjectItemList_eq] at h
  obtain ⟨r, -, rfl⟩ := List.mem_map.1 h
  exact ⟨newItem_notFlag _ _, newItem_type_ne _ _⟩

theorem portSet_items (parray : ℕ → Bool) :
    portSet (portObjectItemListFromCharPortArray parray maxPorts) = {p | p < maxPorts ∧ parray p = true} := by
  ext p
  have hitems := mem_items_iff (p := p) parray
  constructor
  · rintro ⟨hp, ⟨poi, hpoi, -, hmem⟩ | ⟨hne, hall⟩, -⟩
    · exact hitems.1 ⟨poi, hpoi, hmem⟩
    · obtain ⟨poi, hpoi⟩ := List.exists_mem_of_ne_nil _ hne
      exact absurd (hall poi hpoi) (by simp [(notFlag_items hpoi).1])
  · intro h
    obtain ⟨poi, hpoi, hmem⟩ := hitems.2 h
    refine ⟨h.1, .inl ⟨poi, hpoi, (notFlag_items hpoi).1, hmem⟩, fun poi hpoi hflag => ?_⟩
    simp [(notFlag_items hpoi).1] at hflag

/-- Without negated items and any port an object has the ports of its items. -/
theorem hasPort_iff (hitems : ∀ poi ∈ items, poi.notFlag = false ∧ poi.type ≠ .any) (hp : p < maxPorts) :
    hasPort p items = true ↔ ∃ poi ∈ items, p ∈ poi.ports := by
  have hmod : p % 65536 = p := Nat.mod_eq_of_lt hp
  induction items with
  | nil => simp [hasPort]
  | cons poi items ih =>
    obtain ⟨hflag, htype⟩ := hitems poi List.mem_cons_self
    have hrest : hasPort p items = true ↔ ∃ poi ∈ items, p ∈ poi.ports :=
      ih fun poi hpoi => hitems poi (List.mem_cons_of_mem _ hpoi)
    rw [hasPort, List.exists_mem_cons_iff, ← hrest, hmod]
    cases hcase : poi.type with
    | any => exact absurd hcase htype
    | port =>
      have hmem : p ∈ poi.ports ↔ poi.lport.toNat = p := by
        rw [PortObjectItem.ports, hcase, List.mem_singleton]
        exact eq_comm
      simp [hflag, hmem]
    | range =>
      have hmem : p ∈ poi.ports ↔ poi.lport.toNat ≤ p ∧ p ≤ poi.hport.toNat := by
        simp only [PortObjectItem.ports, hcase, List.mem_range'_1]
        omega
      simp [hflag, hmem]

theorem hasPort_items (parray : ℕ → Bool) (hp : p < maxPorts) :
    hasPort p (portObjectItemListFromCharPortArray parray maxPorts) = parray p := by
  rw [Bool.eq_iff_iff, hasPort_iff (fun poi hpoi => notFlag_items hpoi) hp, mem_items_iff]
  simp [hp]

/-! ### Equality -/

theorem portObjectItemsEqual_refl (poi : PortObjectItem) : portObjectItemsEqual poi poi = true := by
  unfold portObjectItemsEqual
  cases poi.type <;> simp

theorem itemsEqual_refl (items : List PortObjectItem) : itemsEqual items items = true := by
  induction items with
  | nil => rfl
  | cons poi items ih => rw [itemsEqual, portObjectItemsEqual_refl, if_pos rfl, ih]

theorem ports_eq_of_equal {pa pb : PortObjectItem} (h : portObjectItemsEqual pa pb = true) : pa.ports = pb.ports := by
  unfold portObjectItemsEqual at h
  split at h
  · cases h
  rename_i htype
  rw [not_not] at htype
  cases hcase : pa.type with
  | any => simp [PortObjectItem.ports, ← htype, hcase]
  | port =>
    rw [hcase] at h
    have hl : pa.lport = pb.lport := by simpa using h
    simp [PortObjectItem.ports, ← htype, hcase, hl]
  | range =>
    rw [hcase] at h
    have hl : pa.lport = pb.lport ∧ pa.hport = pb.hport := by simpa using h
    simp [PortObjectItem.ports, ← htype, hcase, hl.1, hl.2]

theorem mem_of_itemsEqual {as bs : List PortObjectItem} (h : itemsEqual as bs = true) :
    (∃ poi ∈ as, p ∈ poi.ports) ↔ ∃ poi ∈ bs, p ∈ poi.ports := by
  induction as generalizing bs with
  | nil =>
    cases bs with
    | nil => rfl
    | cons pb bs => cases h
  | cons pa as ih =>
    cases bs with
    | nil => cases h
    | cons pb bs =>
      rw [itemsEqual] at h
      split at h
      · rename_i hequal
        rw [List.exists_mem_cons_iff, List.exists_mem_cons_iff, ports_eq_of_equal hequal, ih h]
      · cases h

theorem itemsEqual_items_iff (f g : ℕ → Bool) :
    itemsEqual (portObjectItemListFromCharPortArray f maxPorts) (portObjectItemListFromCharPortArray g maxPorts) =
      true ↔ ∀ p < maxPorts, f p = g p := by
  constructor
  · intro h p hp
    have hmem := mem_of_itemsEqual (p := p) h
    rw [mem_items_iff, mem_items_iff] at hmem
    simp only [hp, true_and] at hmem
    exact Bool.eq_iff_iff.2 hmem
  · intro h
    rw [portObjectItemList_eq, portObjectItemList_eq, runs_congr fun p _ hlt => h p (by omega)]
    exact itemsEqual_refl _

theorem portObjectEqual_eq (a b : PortObject) : portObjectEqual a b = itemsEqual a.itemList b.itemList := by
  unfold portObjectEqual
  split
  · rename_i hlen
    have hne : ∀ as bs : List PortObjectItem, as.length ≠ bs.length → itemsEqual as bs = false := by
      intro as
      induction as with
      | nil =>
        intro bs hbs
        cases bs with
        | nil => exact absurd rfl hbs
        | cons pb bs => rfl
      | cons pa as ih =>
        intro bs hbs
        cases bs with
        | nil => rfl
        | cons pb bs =>
          rw [itemsEqual, ih bs (by simpa using hbs)]
          simp
    exact (hne _ _ hlen).symm
  · rfl

/-! ### Normalising -/

theorem itemList_normalize (hany : portObjectHasAny po = false) :
    (portObjectNormalize po).2.itemList = portObjectItemListFromCharPortArray (portsOf po).parray maxPorts := by
  simp [portObjectNormalize, hany]

theorem itemList_negate (hany : portObjectHasAny po = false) :
    (portObjectNegate po).2.itemList =
      portObjectItemListFromCharPortArray (fun p => !(portsOf po).parray p) maxPorts := by
  simp [portObjectNegate, hany]

/-- A normalised object has no any port. -/
theorem hasAny_normalize (hany : portObjectHasAny po = false) :
    portObjectHasAny (portObjectNormalize po).2 = false := by
  rw [portObjectHasAny, itemList_normalize hany, List.any_eq_false]
  intro poi hpoi
  simpa using (notFlag_items hpoi).2

theorem portsOf_of_ne_nil (hany : portObjectHasAny po = false) (hne : po.itemList ≠ []) :
    (portsOf po).parray p = true ↔ p ∈ portSet po.itemList := by
  simp [parray_portsOf hany, hne]

theorem portSet_nil : portSet [] = ∅ := by
  ext p
  simp [portSet]

theorem lt_of_mem_portSet (h : p ∈ portSet items) : p < maxPorts := h.1

theorem portSet_normalize (hany : portObjectHasAny po = false) :
    portSet (portObjectNormalize po).2.itemList =
      if po.itemList = [] then {p | p < maxPorts} else portSet po.itemList := by
  rw [itemList_normalize hany, portSet_items]
  ext p
  split
  · rename_i hnil
    simp [parray_portsOf hany, hnil, portSet_nil]
  · rename_i hne
    simp only [Set.mem_ofPred_eq, portsOf_of_ne_nil hany hne]
    exact ⟨fun h => h.2, fun h => ⟨lt_of_mem_portSet h, h⟩⟩

/-- Normalising is faithful, and makes no change the second time. -/
structure Faithful (po : PortObject) : Prop where
  same : portSet (portObjectNormalize po).2.itemList = portSet po.itemList
  members : ∀ p < maxPorts, portObjectHasPort (portObjectNormalize po).2 p = true ↔ p ∈ portSet po.itemList
  stable : (portObjectNormalize (portObjectNormalize po).2).2 = (portObjectNormalize po).2

/-- Normalising is faithful and canonical, and the operations are those of sets. -/
structure Canonical (a b : PortObject) : Prop where
  left : Faithful a
  right : Faithful b
  equal : portObjectEqual (portObjectNormalize a).2 (portObjectNormalize b).2 = true ↔
    portSet (portObjectNormalize a).2.itemList = portSet (portObjectNormalize b).2.itemList
  complement : portSet (portObjectNegate a).2.itemList = {p | p < maxPorts ∧ p ∉ portSet a.itemList}
  difference : portSet (portObjectRemovePorts a b).itemList = portSet a.itemList \ portSet b.itemList

/-- Normalising an object that denotes the empty set is not faithful, or enables all ports the second time. -/
theorem nonempty_of_faithful (hany : portObjectHasAny po = false) (h : Faithful po) :
    portSet po.itemList ≠ ∅ := by
  intro hempty
  have hnorm := portSet_normalize (hasAny_normalize hany)
  rw [h.stable, h.same, hempty] at hnorm
  have hnil : (portObjectNormalize po).2.itemList = [] := by
    by_contra hne
    obtain ⟨poi, hpoi⟩ := List.exists_mem_of_ne_nil _ hne
    have hsame := h.same
    rw [hempty, itemList_normalize hany, portSet_items] at hsame
    rw [itemList_normalize hany, portObjectItemList_eq] at hpoi
    obtain ⟨r, hr, rfl⟩ := List.mem_map.1 hpoi
    have hbounds := bounds_of_mem_runs hr
    have hmem : r.1 ∈ ({p | p < maxPorts ∧ (portsOf po).parray p = true} : Set ℕ) := by
      rw [Set.mem_ofPred_eq, ← mem_items_iff, portObjectItemList_eq]
      exact ⟨_, hpoi, (mem_ports_newItem hbounds.1 hbounds.2).2 ⟨le_rfl, hbounds.1⟩⟩
    rw [hsame] at hmem
    exact hmem
  rw [if_pos hnil] at hnorm
  have hzero : (0 : ℕ) ∈ ({p | p < maxPorts} : Set ℕ) := by simp [maxPorts]
  rw [← hnorm] at hzero
  exact hzero

theorem faithful_of_nonempty (hany : portObjectHasAny po = false) (h : portSet po.itemList ≠ ∅) : Faithful po := by
  have hne : po.itemList ≠ [] := by
    intro hnil
    rw [hnil, portSet_nil] at h
    exact h rfl
  have hsame : portSet (portObjectNormalize po).2.itemList = portSet po.itemList := by
    rw [portSet_normalize hany, if_neg hne]
  have hne' : (portObjectNormalize po).2.itemList ≠ [] := by
    intro hnil
    rw [hnil, portSet_nil] at hsame
    exact h hsame.symm
  have hany' := hasAny_normalize hany
  refine ⟨hsame, fun p hp => ?_, ?_⟩
  · rw [portObjectHasPort, itemList_normalize hany, hasPort_items _ hp, portsOf_of_ne_nil hany hne]
  · have harray : ∀ p, (portsOf (portObjectNormalize po).2).parray p = (portsOf po).parray p := by
      intro p
      rw [Bool.eq_iff_iff, portsOf_of_ne_nil hany' hne', portsOf_of_ne_nil hany hne, hsame]
    have hitems := itemList_normalize hany'
    rw [funext harray, ← itemList_normalize hany] at hitems
    have hname : (portObjectNormalize (portObjectNormalize po).2).2.name = (portObjectNormalize po).2.name := by
      rw [portObjectNormalize, if_neg (by simp [hany'])]
    cases hcase : (portObjectNormalize (portObjectNormalize po).2).2
    cases hcase' : (portObjectNormalize po).2
    simp_all

/-- **Normalisation**: it is faithful and canonical, and negation and removal are complement and difference, if and
only if neither object denotes the empty set. -/
theorem canonical_iff (a b : PortObject) (ha : portObjectHasAny a = false) (hb : portObjectHasAny b = false) :
    Canonical a b ↔ portSet a.itemList ≠ ∅ ∧ portSet b.itemList ≠ ∅ := by
  constructor
  · exact fun h => ⟨nonempty_of_faithful ha h.left, nonempty_of_faithful hb h.right⟩
  · rintro ⟨hane, hbne⟩
    have hne : ∀ {items : List PortObjectItem}, portSet items ≠ ∅ → items ≠ [] := by
      rintro items h rfl
      exact h portSet_nil
    refine ⟨faithful_of_nonempty ha hane, faithful_of_nonempty hb hbne, ?_, ?_, ?_⟩
    · rw [portObjectEqual_eq, itemList_normalize ha, itemList_normalize hb, itemsEqual_items_iff, portSet_items,
        portSet_items]
      constructor
      · intro h
        ext p
        exact and_congr_right fun hp => by rw [h p hp]
      · intro h p hp
        have hmem : p ∈ ({p | p < maxPorts ∧ (portsOf a).parray p = true} : Set ℕ) ↔
            p ∈ ({p | p < maxPorts ∧ (portsOf b).parray p = true} : Set ℕ) := by rw [h]
        simpa [hp, ← Bool.eq_iff_iff] using hmem
    · rw [itemList_negate ha, portSet_items]
      ext p
      have hmem := portsOf_of_ne_nil (p := p) ha (hne hane)
      simp only [Set.mem_ofPred_eq, Bool.not_eq_true', ← hmem, Bool.not_eq_true]
    · rw [portObjectRemovePorts, portSet_items]
      ext p
      have hmem := portsOf_of_ne_nil (p := p) ha (hne hane)
      have hmem' := portsOf_of_ne_nil (p := p) hb (hne hbne)
      have hlt : p ∈ portSet a.itemList → p < maxPorts := lt_of_mem_portSet
      rw [Set.mem_sdiff, ← hmem, ← hmem', Set.mem_ofPred_eq]
      rw [← hmem] at hlt
      split <;> simp_all

/-- A port, and all ports but one. -/
theorem canonical_iff_ports :
    Canonical ⟨[], [⟨.port, false, 80, 80⟩]⟩ ⟨[], [⟨.port, true, 80, 80⟩]⟩ ↔
      portSet [⟨.port, false, 80, 80⟩] ≠ ∅ ∧ portSet [⟨.port, true, 80, 80⟩] ≠ ∅ :=
  canonical_iff _ _ (by decide) (by decide)

/-- A list that denotes no port is normalised to no items, and then to all ports. -/
theorem empty_list_denormalised :
    ¬∀ po : PortObject, portObjectHasAny po = false → Faithful po := by
  intro h
  have hfaithful := h ⟨[], [⟨.port, false, 80, 80⟩, ⟨.port, true, 80, 80⟩]⟩ (by decide)
  refine nonempty_of_faithful (by decide) hfaithful ?_
  ext p
  simp [portSet, PortObjectItem.portSet, PortObjectItem.ports]

end Snort.Ports
