import Snort.Ports.Grammar

/-!
# Port lists as texts: what is accepted

* `poParseString_listText`, `portObjectParseString_listText`: the lists that are accepted;
* `Items.Conforms.portSet_items`: their items have the ports that the text denotes;
* **`portObjectParseString_iff`**: when a list of the grammar is accepted as what it denotes, and which texts are
  refused.
-/

namespace Snort.Ports

open Brackets

variable {portVarTableFind : List Char → Option (List PortObjectItem)} {is sub : Items} {neg : Bool} {p : PortText}
  {s t rest : List Char} {items r : List PortObjectItem}

/-! ### What is accepted -/

/-- Without a variable the table does not matter. -/
theorem Reads.of_no_var (h : Reads portVarTableFind neg s items) (hs : '$' ∉ s) :
    Reads (fun _ => none) neg s items := by
  induction h with
  | done => exact .done
  | gap hc _ ih => exact .gap hc (ih fun h => hs (List.mem_cons_of_mem _ h))
  | bang _ ih => exact .bang (ih fun h => hs (List.mem_cons_of_mem _ h))
  | var _ _ _ => exact absurd List.mem_cons_self hs
  | list hclose hadvance _ _ ihtok ih => exact .list hclose hadvance (ihtok (by simp_all)) (ih (by simp_all))
  | port hfirst hport _ ih =>
    obtain ⟨p, heq, -⟩ := hport.eq
    exact .port hfirst hport (ih fun h => hs (by rw [heq]; exact List.mem_append_right _ h))

theorem listText_eq (is : Items) : is.listText = (Items.list false is .nil).text := rfl

theorem dollar_not_mem_listText (is : Items) : '$' ∉ is.listText :=
  fun h => dollar_not_mem_after (.list false is .nil) (List.mem_cons_of_mem ',' h)

/-- The lists that are accepted. -/
theorem poParseString_listText (hshort : is.All PortText.Short) :
    poParseString portVarTableFind is.listText false 0 [] = .ok r ↔
      (is.OneList ∧ is.All PortText.Readable ∧ Distinct is.items) ∧ r = is.items := by
  have hitems : (Items.list false is .nil).items = is.items := by simp [Items.items, poNegateList]
  rw [poParseString_iff, listText_eq]
  constructor
  · rintro ⟨h, hr⟩
    obtain ⟨hone, hread, rfl⟩ := reads_text_inv (.list false is .nil) (fun _ h => absurd rfl h)
      ⟨hshort, trivial⟩ (h.of_no_var (dollar_not_mem_listText is))
    rw [hitems] at hr ⊢
    exact ⟨⟨hone.1, hread.1, hr⟩, rfl⟩
  · rintro ⟨⟨hone, hread, hr⟩, rfl⟩
    rw [← hitems] at hr ⊢
    exact ⟨reads_text ⟨hone, trivial, trivial⟩ ⟨hread, trivial⟩ ⟨hshort, trivial⟩, hr⟩

theorem type_items (is : Items) : ∀ poi ∈ is.items, poi.type ≠ .any := by
  have hneg : ∀ {neg : Bool} {items : List PortObjectItem}, (∀ poi ∈ items, poi.type ≠ .any) →
      ∀ poi ∈ poNegateList neg items, poi.type ≠ .any := by
    intro neg items h
    cases neg with
    | false => exact h
    | true => simpa [poNegateList] using h
  induction is with
  | nil => simp [Items.items]
  | leaf neg p rest ih =>
    intro poi hpoi
    rcases List.mem_append.1 hpoi with hpoi | hpoi
    · refine hneg (fun poi hpoi => ?_) poi hpoi
      rw [List.mem_singleton.1 hpoi]
      cases p <;> simp [PortText.item, portItem, rangeItem]
    · exact ih poi hpoi
  | list neg sub rest ihsub ih =>
    intro poi hpoi
    rcases List.mem_append.1 hpoi with hpoi | hpoi
    · exact hneg ihsub poi hpoi
    · exact ih poi hpoi

theorem lport_newItem (l h : ℕ) : (newItem l h).lport = .ofNat l := by
  unfold newItem
  split_ifs <;> rfl

/-- The items of an array have different bounds. -/
theorem distinct_portObjectItemList (parray : ℕ → Bool) :
    Distinct (portObjectItemListFromCharPortArray parray maxPorts) := by
  rw [portObjectItemList_eq, Distinct, List.map_map, List.Nodup, List.pairwise_map]
  refine (MaximalRuns.pairwise_runs MaximalRuns.open_none).imp_of_mem fun {a b} ha hb hlt heq => ?_
  have hfirst : UInt16.ofNat a.1 = UInt16.ofNat b.1 := by
    rw [← lport_newItem a.1 a.2, ← lport_newItem b.1 b.2]
    exact (Prod.mk.inj heq).1
  have hboundsa := bounds_of_mem_runs ha
  have hboundsb := bounds_of_mem_runs hb
  have hnat := congrArg UInt16.toNat hfirst
  rw [toNat_ofNat (by omega), toNat_ofNat (by omega)] at hnat
  omega

/-- **Lists**: what is accepted, and the ports of the object. -/
theorem portObjectParseString_listText (portVarTableFind : List Char → Option (List PortObjectItem))
    (name : Option (List Char)) (hshort : is.All PortText.Short) :
    (∃ po, portObjectParseString portVarTableFind name is.listText false = .ok po ∧
      po.itemList = portObjectItemListFromCharPortArray (portsOf ⟨[], is.items⟩).parray maxPorts) ∧
        is.OneList ∧ is.All PortText.Readable ∧ Distinct is.items ∨
    (∃ e, portObjectParseString portVarTableFind name is.listText false = .error e) ∧
      ¬(is.OneList ∧ is.All PortText.Readable ∧ Distinct is.items) := by
  have hany : portObjectHasAny ⟨[], is.items⟩ = false := by
    rw [portObjectHasAny, List.any_eq_false]
    intro poi hpoi
    simpa using type_items is poi hpoi
  cases hparse : poParseString portVarTableFind is.listText false 0 [] with
  | error e =>
    refine .inr ⟨⟨e, ?_⟩, fun h => ?_⟩
    · simp [portObjectParseString, hparse]
    · rw [(poParseString_listText hshort).2 ⟨h, rfl⟩] at hparse
      cases hparse
  | ok r =>
    obtain ⟨h, rfl⟩ := (poParseString_listText hshort).1 hparse
    obtain ⟨norm, hnorm⟩ : ∃ norm, norm =
        portObjectItemListFromCharPortArray (portsOf ⟨[], is.items⟩).parray maxPorts := ⟨_, rfl⟩
    have hadd : portObjectAddPortObject [] norm = .ok norm :=
      (portObjectAddPortObject_iff distinct_nil).2 ⟨rfl, by rw [hnorm]; exact distinct_portObjectItemList _⟩
    refine .inl ⟨⟨⟨name.getD "noname".toList, norm⟩, ?_, hnorm⟩, h⟩
    simp only [portObjectParseString, Bool.false_eq_true, if_false, hparse]
    rw [itemList_normalize hany, ← hnorm, hadd]

/-! ### What texts denote -/

/-- A number of a port is read as it is. -/
theorem Number.inRange (n : Number) (h : valueOf n.digits < maxPorts) :
    InRange n.digits ∧ (portOf n.digits).toNat = valueOf n.digits := by
  have hmin : min (valueOf n.digits) (2 ^ 64 - 1) = valueOf n.digits :=
    min_eq_left (by simp only [maxPorts] at h; omega)
  have hvalue : intOfDigits n.digits = valueOf n.digits := by
    rw [intOfDigits_eq n.isDigit n.ne_nil, hmin]
    simp only [maxPorts] at h
    exact CInt.i32_of_range (by omega) (by omega)
  have hrange : InRange n.digits := by
    simp only [InRange, hvalue, maxPorts] at h ⊢
    omega
  have hport := toNat_portOf hrange
  exact ⟨hrange, by omega⟩

/-- The bounds of an item are those of its text. -/
theorem PortText.readable (h : p.bounds.1 ≤ p.bounds.2 ∧ p.bounds.2 < maxPorts) :
    p.Readable ∧ p.item.lport.toNat = p.bounds.1 ∧ p.item.hport.toNat = p.bounds.2 := by
  cases p with
  | port n =>
    obtain ⟨hrange, hport⟩ := n.inRange h.2
    exact ⟨hrange, hport, hport⟩
  | between low high =>
    obtain ⟨hhigh, hhport⟩ := high.inRange h.2
    obtain ⟨hlow, hlport⟩ := low.inRange (h.1.trans_lt h.2)
    refine ⟨⟨hlow, hhigh, ?_⟩, hlport, hhport⟩
    rw [UInt16.le_iff_toNat_le, hlport, hhport]
    exact h.1
  | above low =>
    obtain ⟨hlow, hlport⟩ := low.inRange (h.1.trans_lt h.2)
    exact ⟨hlow, hlport, rfl⟩
  | below high =>
    obtain ⟨hhigh, hhport⟩ := high.inRange h.2
    exact ⟨hhigh, (by decide : (portOf []).toNat = 0), hhport⟩

theorem mem_ports_item (h : p.bounds.1 ≤ p.bounds.2 ∧ p.bounds.2 < maxPorts) {q : ℕ} :
    q ∈ p.item.ports ↔ p.bounds.1 ≤ q ∧ q ≤ p.bounds.2 := by
  obtain ⟨-, hl, hh⟩ := PortText.readable h
  have hrange : ∀ {l r : UInt16}, q ∈ (rangeItem l r).ports ↔ l.toNat ≤ q ∧ q ≤ r.toNat := by
    intro l r
    simp only [PortObjectItem.ports, rangeItem, List.mem_range'_1]
    omega
  cases p with
  | port n =>
    have hn : (portOf n.digits).toNat = valueOf n.digits := hl
    simp only [PortText.item, portItem, PortObjectItem.ports, List.mem_singleton, hn, PortText.bounds]
    omega
  | between low high =>
    rw [← hl, ← hh]
    exact hrange
  | above low =>
    rw [← hl, ← hh]
    exact hrange
  | below high =>
    rw [← hl, ← hh]
    exact hrange

/-- The item of a port or a range with its sign. -/
def leafItem (l : Bool × PortText) : PortObjectItem := { l.2.item with notFlag := l.1 }

theorem leaves_true (is : Items) : is.leaves true = (is.leaves false).map fun l => (true, l.2) := by
  induction is with
  | nil => rfl
  | leaf neg p rest ih => simp [Items.leaves, ih]
  | list neg sub rest ihsub ih =>
    cases neg <;> simp [Items.leaves, ih, ihsub, Function.comp_def]

theorem leaves_of_plain (h : is.Plain) : ∀ l ∈ is.leaves false, l.1 = false := by
  induction is with
  | nil => simp [Items.leaves]
  | leaf neg p rest ih =>
    obtain ⟨rfl, hrest⟩ := h
    simpa [Items.leaves] using ih hrest
  | list neg sub rest ihsub ih =>
    obtain ⟨rfl, hsub, hrest⟩ := h
    intro l hl
    rcases List.mem_append.1 hl with hl | hl
    · exact ihsub hsub l hl
    · exact ih hrest l hl

/-- Where only lists without a negation are negated, an item is negated if it is under a negation. -/
theorem items_eq (h : is.Proper) : is.items = (is.leaves false).map leafItem := by
  induction is with
  | nil => rfl
  | leaf neg p rest ih =>
    have hitem : poNegateList neg [p.item] = [leafItem (neg, p)] := by
      cases neg <;> cases p <;> rfl
    rw [Items.items, ih h, hitem]
    simp [Items.leaves]
  | list neg sub rest ihsub ih =>
    obtain ⟨-, hplain, hsub, hrest⟩ := h
    have hsubitems : poNegateList neg sub.items = (sub.leaves neg).map leafItem := by
      rw [ihsub hsub]
      cases neg with
      | false => rfl
      | true =>
        simp only [poNegateList, if_true, leaves_true, List.map_map]
        refine List.map_congr_left fun l hl => ?_
        simp [leafItem, leaves_of_plain (hplain rfl) l hl]
    rw [Items.items, ih hrest, hsubitems]
    simp [Items.leaves]

theorem Items.All.leaves {P : PortText → Prop} (h : is.All P) (neg : Bool) : ∀ l ∈ is.leaves neg, P l.2 := by
  induction is generalizing neg with
  | nil => simp [Items.leaves]
  | leaf neg' p rest ih =>
    intro l hl
    rcases List.mem_cons.1 hl with rfl | hl
    · exact h.1
    · exact ih h.2 neg l hl
  | list neg' sub rest ihsub ih =>
    intro l hl
    rcases List.mem_append.1 hl with hl | hl
    · exact ihsub h.1 _ l hl
    · exact ih h.2 neg l hl

theorem Items.All.imp {P Q : PortText → Prop} (hPQ : ∀ p, P p → Q p) (h : is.All P) : is.All Q := by
  induction is with
  | nil => trivial
  | leaf neg p rest ih => exact ⟨hPQ p h.1, ih h.2⟩
  | list neg sub rest ihsub ih => exact ⟨ihsub h.1, ih h.2⟩

theorem leaves_ne_nil (hne : is.after ≠ []) (h : is.Proper) (neg : Bool) : is.leaves neg ≠ [] := by
  induction is generalizing neg with
  | nil => exact absurd rfl hne
  | leaf neg' p rest _ => simp [Items.leaves]
  | list neg' sub rest ihsub _ => simp [Items.leaves, ihsub h.1 h.2.2.1 (neg || neg')]

theorem Items.Conforms.distinct (h : is.Conforms) : Distinct is.items := by
  rw [Distinct, items_eq h.proper, List.map_map]
  refine List.Nodup.of_map (Prod.map UInt16.toNat UInt16.toNat) ?_
  rw [List.map_map]
  convert h.nodup using 1
  refine List.map_congr_left fun l hl => ?_
  obtain ⟨-, hlow, hhigh⟩ := PortText.readable (h.ports.leaves false l hl)
  exact Prod.ext hlow hhigh

/-- The items of a text have the ports that it denotes. -/
theorem Items.Conforms.portSet_items (h : is.Conforms) : portSet is.items = is.denotes := by
  have hne := leaves_ne_nil h.ne_nil h.proper false
  have hports : ∀ l ∈ is.leaves false, ∀ q, q ∈ (leafItem l).portSet ↔ l.2.bounds.1 ≤ q ∧ q ≤ l.2.bounds.2 :=
    fun l hl q => mem_ports_item (h.ports.leaves false l hl)
  ext q
  simp only [portSet, Items.denotes, items_eq h.proper, List.mem_map, exists_exists_and_eq_and, forall_exists_index,
    and_imp, forall_apply_eq_imp_iff₂, Set.mem_ofPred_eq, ne_eq, List.map_eq_nil_iff, hne, not_false_eq_true, true_and]
  refine and_congr_right fun _ => and_congr (or_congr_left (exists_congr fun l => ?_)) (forall₂_congr fun l hl => ?_)
  · exact and_congr_right fun hl => and_congr_right fun _ => hports l hl q
  · exact imp_congr_right fun _ => not_congr (hports l hl q)

/-! ### The parser -/

/-- A list is accepted as the ports that it denotes. -/
def AcceptedAs (portVarTableFind : List Char → Option (List PortObjectItem)) (name : Option (List Char))
    (is : Items) : Prop :=
  ∃ po, portObjectParseString portVarTableFind name is.listText false = .ok po ∧ portSet po.itemList = is.denotes

theorem Items.Conforms.readable (h : is.Conforms) : is.All PortText.Readable :=
  h.ports.imp fun _ hp => (PortText.readable hp).1

theorem acceptedAs_iff {name : Option (List Char)} (h : is.Conforms) (hshort : is.All PortText.Short) :
    AcceptedAs portVarTableFind name is ↔ is.OneList := by
  have hne : is.items ≠ [] := by
    rw [items_eq h.proper]
    simpa using leaves_ne_nil h.ne_nil h.proper false
  have hany : portObjectHasAny ⟨[], is.items⟩ = false := by
    rw [portObjectHasAny, List.any_eq_false]
    intro poi hpoi
    simpa using type_items is poi hpoi
  rcases portObjectParseString_listText portVarTableFind name hshort with
    ⟨⟨po, hpo, hitems⟩, hone, -, -⟩ | ⟨⟨e, he⟩, hnot⟩
  · refine ⟨fun _ => hone, fun _ => ⟨po, hpo, ?_⟩⟩
    rw [hitems, Snort.Ports.portSet_items, ← h.portSet_items]
    ext q
    simp only [Set.mem_ofPred_eq, portsOf_of_ne_nil hany hne]
    exact ⟨fun hq => hq.2, fun hq => ⟨lt_of_mem_portSet hq, hq⟩⟩
  · constructor
    · rintro ⟨po, hpo, -⟩
      rw [he] at hpo
      cases hpo
    · exact fun hone => absurd ⟨hone, h.readable, h.distinct⟩ hnot

theorem error_listText_iff {name : Option (List Char)} (hshort : is.All PortText.Short) :
    (∃ e, portObjectParseString portVarTableFind name is.listText false = .error e) ↔
      ¬(is.OneList ∧ is.All PortText.Readable ∧ Distinct is.items) := by
  rcases portObjectParseString_listText portVarTableFind name hshort with
    ⟨⟨po, hpo, -⟩, h⟩ | ⟨he, hnot⟩
  · rw [hpo]
    simp [h]
  · simp only [he, hnot, not_false_eq_true]

/-- The numbers of some digits that are taken for ports. -/
theorem inRange_iff {ds : List Char} (hds : ∀ c ∈ ds, c.isDigit = true) (hne : ds ≠ []) :
    InRange ds ↔ min (valueOf ds) (2 ^ 64 - 1) % 2 ^ 32 ≤ 65535 := by
  rw [InRange, intOfDigits_eq hds hne, CInt.i32]
  push_cast
  omega

/-- Two lists are refused whatever the numbers are. -/
theorem error_of_not_oneList {name : Option (List Char)} (h : ¬is.OneList) :
    ∃ e, portObjectParseString portVarTableFind name is.listText false = .error e := by
  cases hparse : portObjectParseString portVarTableFind name is.listText false with
  | error e => exact ⟨e, rfl⟩
  | ok po =>
    obtain ⟨items, hreads⟩ := reads_of_ok hparse
    have hnested := (hreads.of_no_var (dollar_not_mem_listText is)).nested fun _ h => absurd rfl h
    exact absurd (oneList_of_nested (.list false is .nil) hnested).1 h

/-- **The parser of port lists.**  A list of the grammar whose numbers fit into the buffer is accepted as what it
denotes exactly if no list in it has two lists among its items.  A text in the shape of the grammar is refused exactly
if some list has, or a number is not taken for a port, a range is not one or two items have the same bounds.  Any text
is refused that has an unmatched bracket, a list behind a list, or a number that is not taken for ports. -/
theorem portObjectParseString_iff (portVarTableFind : List Char → Option (List PortObjectItem))
    (name : Option (List Char)) :
    (∀ is : Items, is.Conforms → is.All PortText.Short → (AcceptedAs portVarTableFind name is ↔ is.OneList)) ∧
    (∀ is : Items, is.All PortText.Short →
      ((∃ e, portObjectParseString portVarTableFind name is.listText false = .error e) ↔
        ¬(is.OneList ∧ is.All PortText.Readable ∧ Distinct is.items))) ∧
    (∀ is : Items, ¬is.OneList → ∃ e, portObjectParseString portVarTableFind name is.listText false = .error e) ∧
    (NamesFit portVarTableFind → ∀ s, ¬Balanced '[' ']' s ∨ ¬Nested s ∨ ¬Good s →
      ∃ e, portObjectParseString portVarTableFind name s false = .error e) :=
  ⟨fun _ h hshort => acceptedAs_iff h hshort, fun _ hshort => error_listText_iff hshort,
    fun _ h => error_of_not_oneList h, fun hvars _ hbad => refuses_of_bad hvars hbad⟩

/-- Two lists among the items of a list. -/
def twoLists : Items :=
  .list false (.leaf false (.port ⟨['1'], by decide, List.all_eq_true.1 (by decide)⟩) .nil)
    (.list false (.leaf false (.port ⟨['2'], by decide, List.all_eq_true.1 (by decide)⟩) .nil) .nil)

theorem twoLists_conforms : twoLists.Conforms where
  ne_nil := by decide
  proper := ⟨by decide, nofun, trivial, by decide, nofun, trivial, trivial⟩
  ports := ⟨⟨by decide, trivial⟩, ⟨by decide, trivial⟩, trivial⟩
  nodup := by decide

theorem twoLists_short : twoLists.All PortText.Short := by
  simp [twoLists, Items.All, PortText.Short, bufferDigits]

theorem portObjectParseString_iff_twoLists :
    ¬AcceptedAs (fun _ => none) none twoLists ∧
      ∃ e, portObjectParseString (fun _ => none) none ['[', '1'] false = .error e := by
  obtain ⟨haccepted, -, -, hrefused⟩ := portObjectParseString_iff (fun _ => none) none
  refine ⟨fun h => ?_, hrefused (fun _ h => absurd rfl h) _ (.inl fun h => ?_)⟩
  · exact ((haccepted twoLists twoLists_conforms twoLists_short).1 h).2.1
  · exact absurd (h.depth_eq (by decide)) (by decide)

/-- A number that an `int` takes for 80. -/
def wrapped : Items := .leaf false (.port ⟨"4294967376".toList, by decide, List.all_eq_true.1 (by decide)⟩) .nil

/-- Two lists in a list are not accepted, and a number beyond 65535 is. -/
theorem lists_and_numbers :
    (¬∀ vars name is, is.Conforms → AcceptedAs vars name is) ∧
      ¬∀ vars name s pre run post, IsNumber s pre run post → 65535 < valueOf run →
        ∃ e, portObjectParseString vars name s false = .error e := by
  constructor
  · intro h
    have hone := (acceptedAs_iff twoLists_conforms twoLists_short).1 (h (fun _ => none) none twoLists twoLists_conforms)
    exact hone.2.1
  · intro h
    have hnum : IsNumber wrapped.listText ['['] "4294967376".toList [']'] := by
      refine ⟨rfl, by decide, List.all_eq_true.1 (by decide), by simp, by simp, ?_⟩
      rintro ⟨a, g, n, heq, -⟩
      have hmem : '$' ∈ ['['] := by rw [heq]; simp
      exact absurd hmem (by decide)
    have hshort : wrapped.All PortText.Short := by simp [wrapped, Items.All, PortText.Short, bufferDigits]
    refine (error_listText_iff hshort).1 (h (fun _ => none) none _ _ _ _ hnum (by decide)) ?_
    exact ⟨trivial, ⟨⟨by decide, by decide⟩, trivial⟩, List.nodup_singleton _⟩

end Snort.Ports
