import Snort.Lib.Brackets
import Snort.Ports.Normalize
import Snort.Ports.Values

/-!
# Port lists as texts: the loop over a text

* `poParseString`: the loop, which calls itself for a list, and `portObjectParseString`;
* `Reads`: the texts that the loop reads, with their items;
* **`poParseString_iff`**: what it accepts are these texts, where no two items have the same bounds.
-/

namespace Snort.Ports

/-- `strrchr`: a text in front of its last closing bracket, and from there on. -/
def cutList : List Char → Option (List Char × List Char)
  | [] => none
  | c :: s =>
    match cutList s with
    | some (tok, after) => some (c :: tok, after)
    | none => if c = ']' then some ([], c :: s) else none

theorem cutList_eq {s tok after : List Char} (h : cutList s = some (tok, after)) : s = tok ++ after := by
  induction s generalizing tok with
  | nil => cases h
  | cons c s ih =>
    rw [cutList] at h
    split at h
    · rename_i hcut
      obtain ⟨rfl, rfl⟩ := Prod.mk.inj (Option.some.inj h)
      rw [ih hcut, List.cons_append]
    · split_ifs at h
      obtain ⟨rfl, rfl⟩ := Prod.mk.inj (Option.some.inj h)
      rfl

/-- The cursor goes to the end of a list, where `left` characters are left. -/
def advance (left : ℕ) (s : List Char) : List Char :=
  if s.length = left then s
  else
    match _h : popGetChar2 s with
    | none => []
    | some (_, rest) => advance left rest
termination_by s.length
decreasing_by exact length_popGetChar2 _h

theorem length_advance (left : ℕ) (s : List Char) : (advance left s).length ≤ s.length := by
  induction hn : s.length using Nat.strong_induction_on generalizing s with
  | h n ih =>
    subst hn
    rw [advance]
    split_ifs
    · exact le_rfl
    · split
      · exact Nat.zero_le _
      · rename_i hrest
        have hlt := length_popGetChar2 hrest
        exact (ih _ hlt _ rfl).trans hlt.le

/-- A port or a range begins with a digit or a colon. -/
theorem first_of_readsPort {s rest : List Char} {c : Char} {poi : PortObjectItem} (hgap : isGap c = false)
    (hclose : c ≠ ']') (h : ReadsPort (c :: s) poi rest) :
    (c.isDigit = true ∨ c = ':') ∧ rest.length < (c :: s).length := by
  have hfirst : ∀ {ds t : List Char}, Piece (c :: s) ds t →
      (c.isDigit = true ∧ t.length < (c :: s).length) ∨ c = ':' ∧ t = ':' :: s := by
    intro ds t hpiece
    cases ds with
    | nil =>
      obtain rfl : c :: s = t := hpiece.eq
      rcases hpiece.ends with hfull | hends
      · cases hfull
      · have hc := hends c rfl
        simp only [endsNumber, Bool.or_eq_true, decide_eq_true_eq, or_assoc] at hc
        rcases hc with rfl | rfl | rfl | rfl | rfl | rfl
        · exact .inr ⟨rfl, rfl⟩
        all_goals first | exact absurd rfl hclose | exact absurd hgap (by decide)
    | cons d ds =>
      obtain ⟨rfl, rfl⟩ := List.cons.inj hpiece.eq
      exact .inl ⟨hpiece.digits c List.mem_cons_self, by simp⟩
  cases h with
  | port h hrest =>
    rcases hfirst h with ⟨hdigit, hlt⟩ | ⟨rfl, rfl⟩
    · exact ⟨.inl hdigit, hlt⟩
    · exact absurd rfl (hrest ':' rfl)
  | «open» h hrest =>
    rcases hfirst h with ⟨hdigit, hlt⟩ | ⟨rfl, heq⟩
    · exact ⟨.inl hdigit, by simp only [List.length_cons] at hlt ⊢; omega⟩
    · exact ⟨.inr rfl, by simp [(List.cons.inj heq).2]⟩
  | range h ht h' hle =>
    rename_i ds es t
    have hlt' : rest.length ≤ t.length := by rw [h'.eq]; simp
    rcases hfirst h with ⟨hdigit, hlt⟩ | ⟨rfl, heq⟩
    · exact ⟨.inl hdigit, by simp only [List.length_cons] at hlt ⊢; omega⟩
    · exact ⟨.inr rfl, by rw [← (List.cons.inj heq).2]; simp; omega⟩

theorem head?_gap {c : Char} {s : List Char} (hgap : isGap c = false) : ∀ d ∈ (c :: s).head?, isGap d = false := by
  simpa using hgap

theorem length_poParsePort {s t rest : List Char} {c : Char} {poi : PortObjectItem}
    (hget : popGetChar2 s = some (c, t)) (hclose : c ≠ ']') (h : poParsePort (c :: t) = .ok (poi, rest)) :
    rest.length < s.length := by
  obtain ⟨g, rfl, -, hgap⟩ := popGetChar2_iff.1 hget
  have := (first_of_readsPort hgap hclose ((poParsePort_iff (head?_gap hgap)).1 h)).2
  rw [List.length_append]
  omega

variable (portVarTableFind : List Char → Option (List PortObjectItem))

/-- `_POParseString`, from the loop on. -/
def poParseString (s : List Char) (localNeg : Bool) (listCount : ℕ) (po : List PortObjectItem) :
    Except PopErr (List PortObjectItem) :=
  match _hget : popGetChar2 s with
  | none => if listCount ≠ 0 then .error .noEndlistBracket else .ok po
  | some (c, t) =>
    if c = '!' then poParseString t true listCount po
    else if c = '$' then
      match _hvar : poParseVar portVarTableFind t with
      | .error e => .error e
      | .ok (potmp, rest) =>
        match portObjectAddPortObject po (poNegateList localNeg potmp) with
        | .error e => .error e
        | .ok po => poParseString rest false listCount po
    else if c = '[' then
      match _hcut : cutList t with
      | none => .error .noEndlistBracket
      | some (tok, after) =>
        match poParseString tok false 0 [] with
        | .error e => .error e
        | .ok potmp =>
          match portObjectAddPortObject po (poNegateList localNeg potmp) with
          | .error e => .error e
          | .ok po => poParseString (advance after.length t) false (listCount + 1) po
    else if hclose : c = ']' then
      if listCount = 0 then .error .extraBracket else poParseString t localNeg (listCount - 1) po
    else
      match _hport : poParsePort (c :: t) with
      | .error e => .error e
      | .ok (poi, rest) =>
        match portObjectAddPortObject po (poNegateList localNeg [poi]) with
        | .error e => .error e
        | .ok po => poParseString rest false listCount po
termination_by s.length
decreasing_by
  · exact length_popGetChar2 _hget
  · exact (length_poParseVar _hvar).trans (length_popGetChar2 _hget)
  · have := length_popGetChar2 _hget
    rw [cutList_eq _hcut, List.length_append] at this
    omega
  · exact (length_advance _ _).trans_lt (length_popGetChar2 _hget)
  · exact length_popGetChar2 _hget
  · exact length_poParsePort _hget hclose _hport

/-- `PortObjectParseString`; `pop->s` is `s`, and with `nameflag` the name stands in front of the ports. -/
def portObjectParseString (name : Option (List Char)) (s : List Char) (nameflag : Bool) : Except PopErr PortObject :=
  match if nameflag then poParserName s else some (name.getD "noname".toList, s) with
  | none => .error .noName
  | some (name, s) =>
    match poParseString portVarTableFind s false 0 [] with
    | .error e => .error e
    | .ok potmp =>
      match portObjectAddPortObject [] (portObjectNormalize ⟨[], potmp⟩).2.itemList with
      | .error e => .error e
      | .ok items => .ok ⟨name, items⟩

/-! ### Texts that are read -/

/-- No two items have the same bounds. -/
def Distinct (items : List PortObjectItem) : Prop := (items.map fun poi => (poi.lport, poi.hport)).Nodup

/-- The texts that the loop reads behind a negation or not, with their items. -/
inductive Reads : Bool → List Char → List PortObjectItem → Prop
  | done {neg : Bool} : Reads neg [] []
  | gap {neg : Bool} {c : Char} {s : List Char} {items : List PortObjectItem} (hc : isGap c = true)
    (h : Reads neg s items) : Reads neg (c :: s) items
  | bang {neg : Bool} {s : List Char} {items : List PortObjectItem} (h : Reads true s items) :
    Reads neg ('!' :: s) items
  | var {neg : Bool} {s rest : List Char} {potmp items : List PortObjectItem}
    (hvar : poParseVar portVarTableFind s = .ok (potmp, rest)) (h : Reads false rest items) :
    Reads neg ('$' :: s) (poNegateList neg potmp ++ items)
  | list {neg : Bool} {tok after : List Char} {potmp items : List PortObjectItem} (hclose : ']' ∉ after)
    (hadvance : advance (']' :: after).length (tok ++ ']' :: after) = ']' :: after) (htok : Reads false tok potmp)
    (h : Reads false after items) : Reads neg ('[' :: (tok ++ ']' :: after)) (poNegateList neg potmp ++ items)
  | port {neg : Bool} {c : Char} {s rest : List Char} {poi : PortObjectItem} {items : List PortObjectItem}
    (hfirst : c.isDigit = true ∨ c = ':') (hport : ReadsPort (c :: s) poi rest) (h : Reads false rest items) :
    Reads neg (c :: s) (poNegateList neg [poi] ++ items)

section

variable {portVarTableFind} {s t rest tok after g : List Char} {localNeg : Bool} {listCount : ℕ} {c : Char}
  {po potmp items r : List PortObjectItem}

/-! ### Items -/

theorem distinct_nil : Distinct [] := List.nodup_nil

theorem Distinct.of_append (h : Distinct (po ++ items)) : Distinct po ∧ Distinct items := by
  rw [Distinct, List.map_append, List.nodup_append] at h
  exact ⟨h.1, h.2.1⟩

@[simp] theorem map_bounds_poNegateList (neg : Bool) (items : List PortObjectItem) :
    (poNegateList neg items).map (fun poi => (poi.lport, poi.hport)) =
      items.map fun poi => (poi.lport, poi.hport) := by
  unfold poNegateList
  split_ifs <;> simp

theorem distinct_poNegateList : Distinct (poNegateList localNeg items) ↔ Distinct items := by
  simp [Distinct]

theorem portObjectAddItem_iff {poi : PortObjectItem} (hpo : Distinct po) :
    portObjectAddItem po poi = .ok r ↔ r = po ++ [poi] ∧ Distinct (po ++ [poi]) := by
  have hnew : Distinct (po ++ [poi]) ↔ ¬(po.any fun p => p.lport = poi.lport ∧ p.hport = poi.hport) = true := by
    rw [Distinct, List.map_append, List.nodup_append]
    simp only [List.map_cons, List.map_nil, List.nodup_singleton, List.mem_singleton, forall_eq, true_and,
      List.any_eq_true, decide_eq_true_eq, not_exists, not_and, List.mem_map, forall_exists_index, and_imp,
      forall_apply_eq_imp_iff₂, ne_eq, Prod.mk.injEq]
    exact ⟨fun h => h.2, fun h => ⟨hpo, h⟩⟩
  rw [hnew, portObjectAddItem]
  by_cases hany : (po.any fun p => p.lport = poi.lport ∧ p.hport = poi.hport) = true
  · rw [if_pos hany]
    exact ⟨fun h => (by cases h), fun h => absurd hany h.2⟩
  · rw [if_neg hany, Except.ok.injEq]
    exact ⟨fun h => ⟨h.symm, hany⟩, fun h => h.1.symm⟩

/-- Items are added if all bounds are new. -/
theorem portObjectAddPortObject_iff (hpo : Distinct po) :
    portObjectAddPortObject po items = .ok r ↔ r = po ++ items ∧ Distinct (po ++ items) := by
  induction items generalizing po with
  | nil => simp [portObjectAddPortObject, hpo, eq_comm]
  | cons poi items ih =>
    rw [portObjectAddPortObject]
    constructor
    · intro h
      split at h
      · cases h
      · rename_i po' hadd
        obtain ⟨rfl, hpo'⟩ := (portObjectAddItem_iff hpo).1 hadd
        simpa using (ih hpo').1 h
    · rintro ⟨rfl, hr⟩
      have hpo' : Distinct (po ++ [poi]) := by
        rw [← List.singleton_append, ← List.append_assoc] at hr
        exact hr.of_append.1
      rw [(portObjectAddItem_iff hpo).2 ⟨rfl, hpo'⟩]
      exact (ih hpo').2 ⟨by simp, by simpa using hr⟩

/-! ### Lists -/

theorem cutList_eq_none_iff : cutList s = none ↔ ']' ∉ s := by
  induction s with
  | nil => simp [cutList]
  | cons c s ih =>
    rw [cutList]
    split
    · rename_i hcut
      rw [hcut] at ih
      simp only [reduceCtorEq, false_iff, not_not] at ih ⊢
      exact List.mem_cons_of_mem _ ih
    · rename_i hcut
      have hs := ih.1 hcut
      by_cases hc : c = ']'
      · simp [hc]
      · simp [hc, hs, Ne.symm hc]

theorem cutList_iff : cutList s = some (tok, after) ↔ ∃ t, after = ']' :: t ∧ ']' ∉ t ∧ s = tok ++ ']' :: t := by
  induction s generalizing tok with
  | nil => simp [cutList]
  | cons c s ih =>
    rw [cutList]
    constructor
    · intro h
      split at h
      · rename_i hcut
        obtain ⟨rfl, rfl⟩ := Prod.mk.inj (Option.some.inj h)
        obtain ⟨t, rfl, ht, rfl⟩ := ih.1 hcut
        exact ⟨t, rfl, ht, rfl⟩
      · rename_i hcut
        split_ifs at h with hc
        obtain ⟨rfl, rfl⟩ := Prod.mk.inj (Option.some.inj h)
        exact ⟨s, by rw [hc], cutList_eq_none_iff.1 hcut, by rw [hc, List.nil_append]⟩
    · rintro ⟨t, rfl, ht, heq⟩
      cases tok with
      | nil =>
        obtain ⟨rfl, rfl⟩ := List.cons.inj heq
        rw [cutList_eq_none_iff.2 ht]
        simp
      | cons d tok =>
        obtain ⟨rfl, rfl⟩ := List.cons.inj heq
        rw [ih.2 ⟨t, rfl, ht, rfl⟩]

theorem advance_of_lt {left : ℕ} (h : s.length < left) : advance left s = [] := by
  induction hn : s.length using Nat.strong_induction_on generalizing s with
  | h n ih =>
    subst hn
    rw [advance, if_neg h.ne]
    split
    · rfl
    · rename_i hrest
      have hlt := length_popGetChar2 hrest
      exact ih _ hlt (hlt.trans h) rfl

/-- The cursor gets to the end of a list, or it gets beyond it and then to the end of the text. -/
theorem advance_cases (tok after : List Char) :
    advance after.length (tok ++ after) = after ∨ advance after.length (tok ++ after) = [] := by
  induction hn : tok.length using Nat.strong_induction_on generalizing tok with
  | h n ih =>
    subst hn
    rw [advance]
    split_ifs with hlen
    · refine .inl ?_
      rw [List.length_append] at hlen
      rw [List.length_eq_zero_iff.1 (by omega : tok.length = 0), List.nil_append]
    · split
      · exact .inr rfl
      · rename_i c t hget
        obtain ⟨g, heq, -, -⟩ := popGetChar2_iff.1 hget
        rcases List.append_eq_append_iff.1 heq with ⟨a, -, rfl⟩ | ⟨a, rfl, ha⟩
        · -- the character is behind the list
          refine .inr (advance_of_lt ?_)
          simp
          omega
        · cases a with
          | nil =>
            rw [List.nil_append] at ha
            refine .inr (advance_of_lt ?_)
            rw [← ha]
            simp
          | cons d a =>
            obtain ⟨rfl, rfl⟩ := List.cons.inj ha
            exact ih _ (by simp; omega) a rfl

/-- A list that does not end with white space or a comma. -/
theorem advance_eq (hlast : ∀ c ∈ tok.getLast?, isGap c = false) :
    advance after.length (tok ++ after) = after := by
  induction hn : tok.length using Nat.strong_induction_on generalizing tok with
  | h n ih =>
    subst hn
    rw [advance]
    split_ifs with hlen
    · rw [List.length_append] at hlen
      rw [List.length_eq_zero_iff.1 (by omega : tok.length = 0), List.nil_append]
    · have hne : tok ≠ [] := by
        rintro rfl
        exact hlen (by simp)
      cases hget : popGetChar2 tok with
      | none =>
        have hlast' := hlast _ (List.getLast?_eq_some_getLast hne)
        rw [popGetChar2_eq_none_iff.1 hget _ (List.getLast_mem hne)] at hlast'
        cases hlast'
      | some r =>
        obtain ⟨c, a⟩ := r
        obtain ⟨g, rfl, hg, hc⟩ := popGetChar2_iff.1 hget
        have hnext : popGetChar2 (g ++ c :: a ++ after) = some (c, a ++ after) :=
          popGetChar2_iff.2 ⟨g, by simp, hg, hc⟩
        split
        · rename_i h
          rw [hnext] at h
          cases h
        · rename_i h
          obtain ⟨-, rfl⟩ := Prod.mk.inj (Option.some.inj (hnext.symm.trans h))
          refine ih _ (by simp; omega) (fun d hd => ?_) rfl
          refine hlast d ?_
          cases a with
          | nil => cases hd
          | cons e a => simpa [List.getLast?_append, List.getLast?_cons_cons] using hd

/-! ### Steps of the loop -/

theorem popGetChar2_cons (hgap : isGap c = false) : popGetChar2 (c :: s) = some (c, s) := by simp [popGetChar2, hgap]

theorem popGetChar2_gap (hgap : isGap c = true) : popGetChar2 (c :: s) = popGetChar2 s := by simp [popGetChar2, hgap]

theorem poParseString_none (h : popGetChar2 s = none) :
    poParseString portVarTableFind s localNeg listCount po =
      if listCount ≠ 0 then .error .noEndlistBracket else .ok po := by
  rw [poParseString]
  split <;> simp_all

theorem poParseString_bang (h : popGetChar2 s = some ('!', t)) :
    poParseString portVarTableFind s localNeg listCount po = poParseString portVarTableFind t true listCount po := by
  rw [poParseString]
  split <;> simp_all

theorem poParseString_var (h : popGetChar2 s = some ('$', t)) :
    poParseString portVarTableFind s localNeg listCount po =
      match poParseVar portVarTableFind t with
      | .error e => .error e
      | .ok (potmp, rest) =>
        match portObjectAddPortObject po (poNegateList localNeg potmp) with
        | .error e => .error e
        | .ok po => poParseString portVarTableFind rest false listCount po := by
  rw [poParseString]
  split <;> simp_all
  split <;> simp_all

theorem poParseString_list (h : popGetChar2 s = some ('[', t)) :
    poParseString portVarTableFind s localNeg listCount po =
      match cutList t with
      | none => .error .noEndlistBracket
      | some (tok, after) =>
        match poParseString portVarTableFind tok false 0 [] with
        | .error e => .error e
        | .ok potmp =>
          match portObjectAddPortObject po (poNegateList localNeg potmp) with
          | .error e => .error e
          | .ok po => poParseString portVarTableFind (advance after.length t) false (listCount + 1) po := by
  rw [poParseString]
  split <;> simp_all
  split <;> simp_all

theorem poParseString_close (h : popGetChar2 s = some (']', t)) :
    poParseString portVarTableFind s localNeg listCount po =
      if listCount = 0 then .error .extraBracket
      else poParseString portVarTableFind t localNeg (listCount - 1) po := by
  rw [poParseString]
  split <;> simp_all

theorem poParseString_port (h : popGetChar2 s = some (c, t)) (hc : c ≠ '!' ∧ c ≠ '$' ∧ c ≠ '[' ∧ c ≠ ']') :
    poParseString portVarTableFind s localNeg listCount po =
      match poParsePort (c :: t) with
      | .error e => .error e
      | .ok (poi, rest) =>
        match portObjectAddPortObject po (poNegateList localNeg [poi]) with
        | .error e => .error e
        | .ok po => poParseString portVarTableFind rest false listCount po := by
  rw [poParseString]
  split <;> simp_all
  split <;> simp_all

/-- White space and commas are passed over. -/
theorem poParseString_congr (h : popGetChar2 s = popGetChar2 t) :
    poParseString portVarTableFind s localNeg listCount po =
      poParseString portVarTableFind t localNeg listCount po := by
  conv_lhs => rw [poParseString]
  conv_rhs => rw [poParseString]
  rw [h]

/-! ### The loop reads these texts -/

theorem Reads.gaps (hg : ∀ d ∈ g, isGap d = true) (h : Reads portVarTableFind localNeg t items) :
    Reads portVarTableFind localNeg (g ++ t) items := by
  induction g with
  | nil => exact h
  | cons d g ih => exact .gap (hg d List.mem_cons_self) (ih fun e he => hg e (List.mem_cons_of_mem _ he))

/-- What the loop accepts is read. -/
theorem exists_reads (hpo : Distinct po) (h : poParseString portVarTableFind s localNeg 0 po = .ok r) :
    ∃ items, Reads portVarTableFind localNeg s items ∧ r = po ++ items ∧ Distinct r := by
  induction hn : s.length using Nat.strong_induction_on generalizing s localNeg po r with
  | h n ih =>
    subst hn
    cases hget : popGetChar2 s with
    | none =>
      rw [poParseString_none hget] at h
      cases h
      refine ⟨[], ?_, by simp, hpo⟩
      simpa using Reads.done.gaps (popGetChar2_eq_none_iff.1 hget)
    | some r' =>
      obtain ⟨c, t⟩ := r'
      have hlt := length_popGetChar2 hget
      obtain ⟨g, rfl, hg, hgap⟩ := popGetChar2_iff.1 hget
      -- it is enough to read from this character on
      suffices hread : ∃ items, Reads portVarTableFind localNeg (c :: t) items ∧ r = po ++ items ∧ Distinct r by
        obtain ⟨items, hitems, hr⟩ := hread
        exact ⟨items, hitems.gaps hg, hr⟩
      by_cases hbang : c = '!'
      · subst hbang
        rw [poParseString_bang hget] at h
        obtain ⟨items, hitems, hr⟩ := ih _ hlt hpo h rfl
        exact ⟨items, .bang hitems, hr⟩
      by_cases hdollar : c = '$'
      · subst hdollar
        rw [poParseString_var hget] at h
        split at h
        · cases h
        · rename_i potmp rest hvar
          split at h
          · cases h
          · rename_i po' hadd
            obtain ⟨rfl, hpo'⟩ := (portObjectAddPortObject_iff hpo).1 hadd
            obtain ⟨items, hitems, rfl, hr⟩ := ih _ ((length_poParseVar hvar).trans hlt) hpo' h rfl
            exact ⟨_, .var hvar hitems, by simp, hr⟩
      by_cases hopen : c = '['
      · subst hopen
        rw [poParseString_list hget] at h
        split at h
        · cases h
        · rename_i tok after hcut
          obtain ⟨after, rfl, hclose, rfl⟩ := cutList_iff.1 hcut
          split at h
          · cases h
          · rename_i potmp htok
            have htok' : tok.length < (g ++ '[' :: (tok ++ ']' :: after)).length := by simp; omega
            obtain ⟨potmp, hpotmp, rfl, -⟩ := ih _ htok' distinct_nil htok rfl
            split at h
            · cases h
            · rename_i po' hadd
              obtain ⟨rfl, hpo'⟩ := (portObjectAddPortObject_iff hpo).1 hadd
              rcases advance_cases tok (']' :: after) with hadvance | hadvance
              · rw [hadvance, poParseString_close (popGetChar2_cons rfl), if_neg (by omega)] at h
                obtain ⟨items, hitems, rfl, hr⟩ := ih _ (by simp; omega) hpo' h rfl
                exact ⟨_, .list hclose hadvance (by simpa using hpotmp) hitems, by simp, hr⟩
              · rw [hadvance, poParseString_none rfl, if_pos (by omega)] at h
                cases h
      by_cases hclose : c = ']'
      · subst hclose
        rw [poParseString_close hget, if_pos rfl] at h
        cases h
      rw [poParseString_port hget ⟨hbang, hdollar, hopen, hclose⟩] at h
      split at h
      · cases h
      · rename_i poi rest hport
        split at h
        · cases h
        · rename_i po' hadd
          obtain ⟨rfl, hpo'⟩ := (portObjectAddPortObject_iff hpo).1 hadd
          have hreads := (poParsePort_iff (head?_gap hgap)).1 hport
          obtain ⟨items, hitems, rfl, hr⟩ := ih _ (length_poParsePort hget hclose hport) hpo' h rfl
          exact ⟨_, .port (first_of_readsPort hgap hclose hreads).1 hreads hitems, by simp, hr⟩

/-- What is read is accepted, if no two items have the same bounds. -/
theorem poParseString_of_reads (po : List PortObjectItem) (h : Reads portVarTableFind localNeg s items)
    (hpo : Distinct (po ++ items)) :
    poParseString portVarTableFind s localNeg 0 po = .ok (po ++ items) := by
  induction h generalizing po with
  | done => simp [poParseString_none (show popGetChar2 [] = none from rfl)]
  | gap hc _ ih => rw [poParseString_congr (popGetChar2_gap hc), ih _ hpo]
  | bang _ ih => rw [poParseString_bang (popGetChar2_cons rfl), ih _ hpo]
  | var hvar _ ih =>
    rw [← List.append_assoc] at hpo
    rw [poParseString_var (popGetChar2_cons rfl), hvar]
    simp only [(portObjectAddPortObject_iff hpo.of_append.1.of_append.1).2 ⟨rfl, hpo.of_append.1⟩, ih _ hpo,
      List.append_assoc]
  | list hclose hadvance _ _ ihtok ih =>
    rename_i tok after potmp items _ _
    rw [← List.append_assoc] at hpo
    have htok := ihtok [] (distinct_poNegateList.1 hpo.of_append.1.of_append.2)
    rw [poParseString_list (popGetChar2_cons rfl), cutList_iff.2 ⟨after, rfl, hclose, rfl⟩]
    simp only [htok, List.nil_append, (portObjectAddPortObject_iff hpo.of_append.1.of_append.1).2
      ⟨rfl, hpo.of_append.1⟩, hadvance]
    rw [poParseString_close (popGetChar2_cons rfl), if_neg (by omega), Nat.zero_add, Nat.sub_self, ih _ hpo,
      List.append_assoc]
  | port hfirst hport _ ih =>
    rename_i neg c s rest poi items _
    rw [← List.append_assoc] at hpo
    have hgap : isGap c = false := by
      rcases hfirst with h | rfl
      · exact isGap_of_isDigit h
      · rfl
    have hc : c ≠ '!' ∧ c ≠ '$' ∧ c ≠ '[' ∧ c ≠ ']' := by
      rcases hfirst with h | rfl
      · refine ⟨?_, ?_, ?_, ?_⟩ <;> rintro rfl <;> exact absurd h (by decide)
      · decide
    rw [poParseString_port (popGetChar2_cons hgap) hc, (poParsePort_iff (head?_gap hgap)).2 hport]
    simp only [(portObjectAddPortObject_iff hpo.of_append.1.of_append.1).2 ⟨rfl, hpo.of_append.1⟩, ih _ hpo,
      List.append_assoc]

/-- **What the loop accepts**: the texts that are read, where no two items have the same bounds. -/
theorem poParseString_iff :
    poParseString portVarTableFind s localNeg 0 [] = .ok r ↔ Reads portVarTableFind localNeg s r ∧ Distinct r := by
  constructor
  · intro h
    obtain ⟨items, hitems, rfl, hr⟩ := exists_reads distinct_nil h
    exact ⟨by simpa using hitems, hr⟩
  · rintro ⟨h, hr⟩
    simpa using poParseString_of_reads [] h (by simpa using hr)

end

end Snort.Ports
