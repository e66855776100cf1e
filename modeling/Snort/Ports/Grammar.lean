import Mathlib.Data.List.TakeWhile
import Snort.Ports.Refusal

/-!
# Port lists as texts: the grammar

* `Number`, `PortText`, `Items`: the texts of the grammar, with what they denote;
* `Readable`: the numbers of a port or a range are ports, once they are read; `poParsePort_text`;
* `Items.OneList`: no list has two lists among its items;
* `reads_text`, `reads_text_inv`: the texts of the grammar that are read;
* **`portObjectParseString_iff`**: the texts of the grammar that are accepted as what they denote, and the texts that
  are refused.

* `mem_portText`, `bracket_not_mem_after_iff`, `balanced_text`, `getLast?_text`: the characters of the texts;
* `oneList_of_nested`: where no bracket opens behind one that closes no list has two lists;
* **`reads_text`**, **`reads_text_inv`**: the texts that are read, with their items.
-/

namespace Snort.Ports

open Brackets CInt

/-! ### The texts -/

/-- Some digits. -/
structure Number where
  digits : List Char
  ne_nil : digits ≠ []
  isDigit : ∀ c ∈ digits, c.isDigit = true

/-- The number that some digits spell. -/
def valueOf (ds : List Char) : ℕ := Numeral.value 10 (ds.map fun c => c.toNat - 48)

/-- `port`, `low:high`, `low:` and `:high`. -/
inductive PortText
  | port (n : Number)
  | between (low high : Number)
  | above (low : Number)
  | below (high : Number)

def PortText.text : PortText → List Char
  | .port n => n.digits
  | .between low high => low.digits ++ ':' :: high.digits
  | .above low => low.digits ++ [':']
  | .below high => ':' :: high.digits

/-- The first port and the last one. -/
def PortText.bounds : PortText → ℕ × ℕ
  | .port n => (valueOf n.digits, valueOf n.digits)
  | .between low high => (valueOf low.digits, valueOf high.digits)
  | .above low => (valueOf low.digits, 65535)
  | .below high => (0, valueOf high.digits)

/-- The items of a list, with or without a negation; an item is a port, a range or a list. -/
inductive Items
  | nil
  | leaf (neg : Bool) (p : PortText) (rest : Items)
  | list (neg : Bool) (sub rest : Items)

def sign (neg : Bool) : List Char := if neg then ['!'] else []

/-- The text of items behind a comma each. -/
def Items.after : Items → List Char
  | .nil => []
  | .leaf neg p rest => ',' :: (sign neg ++ (p.text ++ rest.after))
  | .list neg sub rest => ',' :: (sign neg ++ '[' :: (sub.after.drop 1 ++ ']' :: rest.after))

/-- The text of items with commas between them. -/
def Items.text (is : Items) : List Char := is.after.drop 1

/-- The text of a list. -/
def Items.listText (is : Items) : List Char := '[' :: (is.text ++ [']'])

/-- The ports and ranges, and whether they are under a negation. -/
def Items.leaves : Bool → Items → List (Bool × PortText)
  | _, .nil => []
  | neg, .leaf neg' p rest => (neg || neg', p) :: rest.leaves neg
  | neg, .list neg' sub rest => sub.leaves (neg || neg') ++ rest.leaves neg

/-- All ports and ranges have a property. -/
def Items.All (P : PortText → Prop) : Items → Prop
  | .nil => True
  | .leaf _ p rest => P p ∧ rest.All P
  | .list _ sub rest => sub.All P ∧ rest.All P

/-- Without a negation, at any depth. -/
def Items.Plain : Items → Prop
  | .nil => True
  | .leaf neg _ rest => neg = false ∧ rest.Plain
  | .list neg sub rest => neg = false ∧ sub.Plain ∧ rest.Plain

/-- The lists are not empty, and only lists without a negation are negated. -/
def Items.Proper : Items → Prop
  | .nil => True
  | .leaf _ _ rest => rest.Proper
  | .list neg sub rest => sub.after ≠ [] ∧ (neg = true → sub.Plain) ∧ sub.Proper ∧ rest.Proper

/-- The texts of the grammar: ranges are of ports, and no two items have the same bounds. -/
structure Items.Conforms (is : Items) : Prop where
  ne_nil : is.after ≠ []
  proper : is.Proper
  ports : is.All fun p => p.bounds.1 ≤ p.bounds.2 ∧ p.bounds.2 < maxPorts
  nodup : ((is.leaves false).map fun l => l.2.bounds).Nodup

/-- The union of the positive items without the negated ones; all ports where no item is positive. -/
def Items.denotes (is : Items) : Set ℕ :=
  {q | q < maxPorts ∧
    ((∃ l ∈ is.leaves false, l.1 = false ∧ l.2.bounds.1 ≤ q ∧ q ≤ l.2.bounds.2) ∨
      ∀ l ∈ is.leaves false, l.1 = true) ∧
    ∀ l ∈ is.leaves false, l.1 = true → ¬(l.2.bounds.1 ≤ q ∧ q ≤ l.2.bounds.2)}

/-- No list has two lists among its items. -/
def Items.NoList : Items → Prop
  | .nil => True
  | .leaf _ _ rest => rest.NoList
  | .list _ _ _ => False

def Items.OneList : Items → Prop
  | .nil => True
  | .leaf _ _ rest => rest.OneList
  | .list _ sub rest => sub.OneList ∧ rest.NoList ∧ rest.OneList

/-! ### Ports and ranges as they are read -/

/-- The numbers fit into the buffer. -/
def PortText.Short : PortText → Prop
  | .port n => n.digits.length ≤ bufferDigits
  | .between low high => low.digits.length ≤ bufferDigits ∧ high.digits.length ≤ bufferDigits
  | .above low => low.digits.length ≤ bufferDigits
  | .below high => high.digits.length ≤ bufferDigits

/-- What the numbers are taken for are the bounds of a range of ports. -/
def PortText.Readable : PortText → Prop
  | .port n => InRange n.digits
  | .between low high => InRange low.digits ∧ InRange high.digits ∧ portOf low.digits ≤ portOf high.digits
  | .above low => InRange low.digits
  | .below high => InRange high.digits

/-- The item that is read. -/
def PortText.item : PortText → PortObjectItem
  | .port n => portItem (portOf n.digits)
  | .between low high => rangeItem (portOf low.digits) (portOf high.digits)
  | .above low => rangeItem (portOf low.digits) 65535
  | .below high => rangeItem (portOf []) (portOf high.digits)

/-- The items that are read. -/
def Items.items : Items → List PortObjectItem
  | .nil => []
  | .leaf neg p rest => poNegateList neg [p.item] ++ rest.items
  | .list neg sub rest => poNegateList neg sub.items ++ rest.items

section

variable {ds es rest rest' s t : List Char} {p : PortText} {poi : PortObjectItem}

theorem toNat_of_isDigit {c : Char} (h : c.isDigit = true) : 48 ≤ c.toNat ∧ c.toNat ≤ 57 := by
  simp only [Char.isDigit, Bool.and_eq_true, decide_eq_true_eq, UInt32.le_iff_toNat_le] at h
  exact h

theorem digitValue_of_isDigit {c : Char} (h : c.isDigit = true) :
    Util.digitValue (BitVec.ofNat 8 c.toNat) = c.toNat - 48 := by
  obtain ⟨hlow, hhigh⟩ := toNat_of_isDigit h
  have hnat : (BitVec.ofNat 8 c.toNat).toNat = c.toNat := by
    rw [BitVec.toNat_ofNat]
    exact Nat.mod_eq_of_lt (by omega)
  rw [Util.digitValue, hnat, if_pos (by omega)]

/-- A text of digits only. -/
theorem numeral_digits {bs : List (BitVec 8)} (hbs : ∀ b ∈ bs, Util.digitValue b < 10) (hne : bs ≠ []) :
    Util.numeral bs 10 = some (Numeral.value 10 (bs.map Util.digitValue), bs.length) := by
  have hplus : bs.head? ≠ some 43 := by
    intro h
    exact absurd (hbs 43 (List.mem_of_mem_head? h)) (by decide)
  have hall : bs.takeWhile (fun b => Util.digitValue b < 10) = bs := by
    rw [List.takeWhile_eq_self_iff]
    simpa using hbs
  unfold Util.numeral Util.numeralBase
  simp only [if_neg hplus]
  simp [hall, hne]

/-- What an `int` makes of some digits. -/
theorem intOfDigits_eq (hds : ∀ c ∈ ds, c.isDigit = true) (hne : ds ≠ []) :
    intOfDigits ds = i32 (min (valueOf ds) (2 ^ 64 - 1) : ℕ) := by
  have hvalues : (ds.map fun c => BitVec.ofNat 8 c.toNat).map Util.digitValue = ds.map fun c => c.toNat - 48 := by
    rw [List.map_map]
    exact List.map_congr_left fun c hc => digitValue_of_isDigit (hds c hc)
  have hdigit : ∀ b ∈ ds.map fun c => BitVec.ofNat 8 c.toNat, Util.digitValue b < 10 := by
    intro b hb
    obtain ⟨c, hc, rfl⟩ := List.mem_map.1 hb
    have := toNat_of_isDigit (hds c hc)
    rw [digitValue_of_isDigit (hds c hc)]
    omega
  rw [intOfDigits, Util.strtoul, numeral_digits hdigit (by simpa using hne), hvalues]
  rfl

theorem intOfDigits_nil : intOfDigits [] = 0 := by decide

theorem inRange_nil : InRange [] := by simp [InRange, intOfDigits_nil]

theorem toNat_portOf (h : InRange ds) : ((portOf ds).toNat : ℤ) = intOfDigits ds := by
  obtain ⟨hlow, hhigh⟩ := h
  rw [portOf, UInt16.toNat_ofNat_of_lt' (by simp [UInt16.size]; omega)]
  omega

/-- The digits that the buffer takes are determined. -/
theorem Piece.unique (h : Piece (ds ++ rest) es rest') (hds : ∀ c ∈ ds, c.isDigit = true)
    (hlen : ds.length ≤ bufferDigits) (hrest : ∀ c ∈ rest.head?, endsNumber c = true) : es = ds ∧ rest' = rest := by
  have hes := getDigits_iff.2 ⟨h.eq, h.digits, h.length_le, h.ends⟩
  rw [getDigits_iff.2 ⟨rfl, hds, hlen, .inr hrest⟩] at hes
  obtain ⟨rfl, rfl⟩ := Prod.mk.inj (Except.ok.inj hes)
  exact ⟨rfl, rfl⟩

/-- What is read as a port or a range is determined. -/
theorem ReadsPort.unique {poi' : PortObjectItem} (hs : ∀ c ∈ s.head?, isGap c = false) (h : ReadsPort s poi rest)
    (h' : ReadsPort s poi' rest') : poi' = poi ∧ rest' = rest := by
  rw [← poParsePort_iff hs] at h h'
  rw [h] at h'
  obtain ⟨rfl, rfl⟩ := Prod.mk.inj (Except.ok.inj h')
  exact ⟨rfl, rfl⟩

theorem endsNumber_of_comma (hrest : ∀ c ∈ rest.head?, c = ',') : ∀ c ∈ rest.head?, endsNumber c = true := by
  intro c hc
  rw [hrest c hc]
  rfl

theorem endsNumber_colon : ∀ c ∈ (':' :: rest).head?, endsNumber c = true := by simp [endsNumber]

theorem Number.piece (n : Number) (hlen : n.digits.length ≤ bufferDigits) (hrange : InRange n.digits)
    (hrest : ∀ c ∈ rest.head?, endsNumber c = true) : Piece (n.digits ++ rest) n.digits rest :=
  ⟨rfl, n.isDigit, hlen, .inr hrest, hrange⟩

theorem Number.head (n : Number) (rest : List Char) :
    ∃ c, (n.digits ++ rest).head? = some c ∧ c.isDigit = true := by
  obtain ⟨c, ds, hds⟩ := List.exists_cons_of_ne_nil n.ne_nil
  exact ⟨c, by rw [hds]; rfl, n.isDigit c (by rw [hds]; exact List.mem_cons_self)⟩

/-- The text of a port or a range begins with a digit or a colon. -/
theorem PortText.head (p : PortText) (rest : List Char) :
    ∃ c t, p.text ++ rest = c :: t ∧ (c.isDigit = true ∨ c = ':') := by
  have hnumber : ∀ (n : Number) (rest : List Char), ∃ c t, n.digits ++ rest = c :: t ∧ c.isDigit = true := by
    intro n rest
    obtain ⟨c, ds, hds⟩ := List.exists_cons_of_ne_nil n.ne_nil
    exact ⟨c, ds ++ rest, by rw [hds]; rfl, n.isDigit c (by rw [hds]; exact List.mem_cons_self)⟩
  cases p with
  | port n =>
    obtain ⟨c, t, heq, hc⟩ := hnumber n rest
    exact ⟨c, t, heq, .inl hc⟩
  | between low high =>
    obtain ⟨c, t, heq, hc⟩ := hnumber low (':' :: high.digits ++ rest)
    exact ⟨c, t, by rw [PortText.text, List.append_assoc, heq], .inl hc⟩
  | above low =>
    obtain ⟨c, t, heq, hc⟩ := hnumber low ([':'] ++ rest)
    exact ⟨c, t, by rw [PortText.text, List.append_assoc, heq], .inl hc⟩
  | below high => exact ⟨':', high.digits ++ rest, rfl, .inr rfl⟩

theorem readsPort_text (hp : p.Readable) (hshort : p.Short) (hrest : ∀ c ∈ rest.head?, c = ',') :
    ReadsPort (p.text ++ rest) p.item rest := by
  have hends := endsNumber_of_comma hrest
  cases p with
  | port n =>
    refine .port (n.piece hshort hp hends) fun c hc => ?_
    rw [hrest c hc]
    decide
  | between low high =>
    rw [PortText.text, List.append_assoc]
    exact .range (low.piece hshort.1 hp.1 endsNumber_colon) (high.head rest) (high.piece hshort.2 hp.2.1 hends) hp.2.2
  | above low =>
    rw [PortText.text, List.append_assoc]
    exact .open (low.piece hshort hp endsNumber_colon) hrest
  | below high =>
    have hnone : Piece (':' :: (high.digits ++ rest)) [] (':' :: (high.digits ++ rest)) :=
      ⟨rfl, by simp, by simp, .inr endsNumber_colon, inRange_nil⟩
    refine .range hnone (high.head rest) (high.piece hshort hp hends) ?_
    rw [UInt16.le_iff_toNat_le, show portOf [] = 0 by decide]
    exact Nat.zero_le _

theorem readable_of_readsPort (hshort : p.Short) (hrest : ∀ c ∈ rest.head?, c = ',')
    (h : ReadsPort (p.text ++ rest) poi rest') : p.Readable := by
  have hends := endsNumber_of_comma hrest
  -- the first number is read in any case
  have hfirst : ∀ {n : Number} {t : List Char}, n.digits.length ≤ bufferDigits →
      (∀ c ∈ t.head?, endsNumber c = true) → ReadsPort (n.digits ++ t) poi rest' → InRange n.digits := by
    intro n t hlen ht hn
    obtain ⟨ds, rest'', hpiece⟩ : ∃ ds rest'', Piece (n.digits ++ t) ds rest'' := by
      cases hn with
      | port hp hcolon => exact ⟨_, _, hp⟩
      | «open» hp hcomma => exact ⟨_, _, hp⟩
      | range hp hdigit hp' hle => exact ⟨_, _, hp⟩
    rw [← (hpiece.unique n.isDigit hlen ht).1]
    exact hpiece.inRange
  -- a colon with a number behind it is the one of a range
  have hsecond : ∀ (ds : List Char) {n : Number}, (∀ c ∈ ds, c.isDigit = true) → ds.length ≤ bufferDigits →
      n.digits.length ≤ bufferDigits → ReadsPort (ds ++ ':' :: (n.digits ++ rest)) poi rest' →
      InRange n.digits ∧ portOf ds ≤ portOf n.digits := by
    intro ds n hds hlen hlen' hn
    obtain ⟨c, hc, hdigit⟩ := n.head rest
    cases hn with
    | port hp hcolon =>
      obtain ⟨-, rfl⟩ := hp.unique hds hlen endsNumber_colon
      exact absurd rfl (hcolon ':' rfl)
    | «open» hp hcomma =>
      obtain ⟨-, heq⟩ := hp.unique hds hlen endsNumber_colon
      obtain ⟨-, rfl⟩ := List.cons.inj heq
      rw [hcomma c hc] at hdigit
      cases hdigit
    | range hp ht hp' hle =>
      obtain ⟨rfl, heq⟩ := hp.unique hds hlen endsNumber_colon
      obtain ⟨-, rfl⟩ := List.cons.inj heq
      obtain ⟨rfl, -⟩ := hp'.unique n.isDigit hlen' hends
      exact ⟨hp'.inRange, hle⟩
  cases p with
  | port n => exact hfirst hshort hends h
  | between low high =>
    rw [PortText.text, List.append_assoc] at h
    exact ⟨hfirst hshort.1 endsNumber_colon h, hsecond low.digits low.isDigit hshort.1 hshort.2 h⟩
  | above low =>
    rw [PortText.text, List.append_assoc] at h
    exact hfirst hshort endsNumber_colon h
  | below high => exact (hsecond [] (by simp) (by simp) hshort h).1

end

/-! ## Port lists as texts: reading the texts of the grammar -/

open Brackets

variable {portVarTableFind : List Char → Option (List PortObjectItem)} {is sub : Items} {neg : Bool} {p : PortText}
  {s t rest : List Char} {items r : List PortObjectItem}

/-! ### Characters of the texts -/

@[simp] theorem text_nil : Items.nil.text = [] := rfl

@[simp] theorem text_leaf (neg : Bool) (p : PortText) (rest : Items) :
    (Items.leaf neg p rest).text = sign neg ++ (p.text ++ rest.after) := rfl

@[simp] theorem text_list (neg : Bool) (sub rest : Items) :
    (Items.list neg sub rest).text = sign neg ++ '[' :: (sub.text ++ ']' :: rest.after) := rfl

/-- Items behind a comma. -/
theorem after_cases (is : Items) : is = .nil ∨ is.after = ',' :: is.text := by
  cases is with
  | nil => exact .inl rfl
  | leaf neg p rest => exact .inr rfl
  | list neg sub rest => exact .inr rfl

theorem head?_after (is : Items) : ∀ c ∈ is.after.head?, c = ',' := by
  rcases after_cases is with rfl | h
  · simp [Items.after]
  · simp [h]

theorem mem_sign {c : Char} (h : c ∈ sign neg) : c = '!' := by
  cases neg with
  | false => cases h
  | true => simpa [sign] using h

theorem mem_portText {c : Char} (h : c ∈ p.text) : c.isDigit = true ∨ c = ':' := by
  cases p with
  | port n => exact .inl (n.isDigit c h)
  | between low high =>
    rcases List.mem_append.1 h with h | h
    · exact .inl (low.isDigit c h)
    · rcases List.mem_cons.1 h with rfl | h
      · exact .inr rfl
      · exact .inl (high.isDigit c h)
  | above low =>
    rcases List.mem_append.1 h with h | h
    · exact .inl (low.isDigit c h)
    · exact .inr (by simpa using h)
  | below high =>
    rcases List.mem_cons.1 h with rfl | h
    · exact .inr rfl
    · exact .inl (high.isDigit c h)

theorem not_mem_sign_append {c : Char} (hbang : c ≠ '!') (h : c ∉ s) : c ∉ sign neg ++ s := by
  rw [List.mem_append]
  rintro (hc | hc)
  · exact hbang (mem_sign hc)
  · exact h hc

theorem not_mem_portText_append {c : Char} (hdigit : c.isDigit = false) (hcolon : c ≠ ':') (h : c ∉ s) :
    c ∉ p.text ++ s := by
  rw [List.mem_append]
  rintro (hc | hc)
  · rcases mem_portText hc with hc | hc
    · simp [hdigit] at hc
    · exact hcolon hc
  · exact h hc

theorem dollar_not_mem_after (is : Items) : '$' ∉ is.after := by
  induction is with
  | nil => simp [Items.after]
  | leaf neg p rest ih =>
    rw [Items.after, List.mem_cons, not_or]
    exact ⟨by decide, not_mem_sign_append (by decide) (not_mem_portText_append rfl (by decide) ih)⟩
  | list neg sub rest ihsub ih =>
    have hsub : '$' ∉ sub.after.tail := fun h => ihsub (List.mem_of_mem_tail h)
    rw [Items.after, List.mem_cons, not_or]
    refine ⟨by decide, not_mem_sign_append (by decide) ?_⟩
    simp [hsub, ih]

/-- Brackets are those of lists. -/
theorem bracket_not_mem_after_iff {c : Char} (hc : c = '[' ∨ c = ']') (is : Items) : c ∉ is.after ↔ is.NoList := by
  have hne : c ≠ ',' ∧ c ≠ '!' ∧ c.isDigit = false ∧ c ≠ ':' := by
    rcases hc with rfl | rfl <;> decide
  induction is with
  | nil => simp [Items.after, Items.NoList]
  | leaf neg p rest ih =>
    refine Iff.trans ?_ ih
    rw [Items.after, List.mem_cons, not_or]
    constructor
    · rintro ⟨-, h⟩ hrest
      exact h (List.mem_append_right _ (List.mem_append_right _ hrest))
    · exact fun h => ⟨hne.1, not_mem_sign_append hne.2.1 (not_mem_portText_append hne.2.2.1 hne.2.2.2 h)⟩
  | list neg sub rest _ _ =>
    rcases hc with rfl | rfl <;> simp [Items.after, Items.NoList]

theorem balanced_after (h : Balanced '[' ']' is.text) : Balanced '[' ']' is.after := by
  rcases after_cases is with rfl | hafter
  · exact .nil
  · rw [hafter]
    exact .skip (by decide) (by decide) h

theorem balanced_text (is : Items) : Balanced '[' ']' is.text := by
  have hsign : ∀ neg, ∀ c ∈ sign neg, c ≠ '[' ∧ c ≠ ']' := by
    intro neg c hc
    rw [mem_sign hc]
    decide
  induction is with
  | nil => exact .nil
  | leaf neg p rest ih =>
    refine balanced_append (hsign neg) (balanced_append (fun c hc => ?_) (balanced_after ih))
    rcases mem_portText hc with hc | rfl
    · exact ne_bracket (p := Char.isDigit) rfl rfl hc
    · decide
  | list neg sub rest ihsub ih => exact balanced_append (hsign neg) (.nest ihsub (balanced_after ih))

theorem oneList_of_noList (h : is.NoList) : is.OneList := by
  induction is with
  | nil => trivial
  | leaf neg p rest ih => exact ih h
  | list neg sub rest _ _ => exact h.elim

theorem Nested.of_append (h : Nested (s ++ t)) : Nested t :=
  fun a b heq => h (s ++ a) b (by rw [heq, List.append_assoc])

/-- Where no bracket opens behind one that closes no list has two lists. -/
theorem oneList_of_nested (is : Items) (h : Nested is.text) : is.OneList := by
  induction is with
  | nil => trivial
  | leaf neg p rest ih =>
    refine ih ?_
    rw [text_leaf, ← List.append_assoc] at h
    rcases after_cases rest with rfl | hafter
    · exact h.of_append
    · rw [hafter] at h
      exact Nested.of_append (s := [',']) h.of_append
  | list neg sub rest ihsub _ =>
    have hrest : rest.NoList := by
      rw [← bracket_not_mem_after_iff (.inl rfl)]
      exact h (sign neg ++ '[' :: sub.text) rest.after (by simp)
    refine ⟨ihsub fun a b heq hb => ?_, hrest, oneList_of_noList hrest⟩
    exact h (sign neg ++ '[' :: a) (b ++ ']' :: rest.after) (by simp [heq]) (List.mem_append_left _ hb)

/-! ### The ends of the texts -/

theorem getLast?_append {P : Char → Prop} (hs : ∀ c ∈ s.getLast?, P c) (ht : ∀ c ∈ t.getLast?, P c) :
    ∀ c ∈ (s ++ t).getLast?, P c := by
  intro c hc
  rw [List.getLast?_append] at hc
  cases hlast : t.getLast? with
  | none =>
    rw [hlast, Option.none_or] at hc
    exact hs c hc
  | some d =>
    rw [hlast, Option.some_or] at hc
    exact ht c (hlast ▸ hc)

theorem getLast?_portText (p : PortText) : ∀ c ∈ p.text.getLast?, isGap c = false := by
  intro c hc
  rcases mem_portText (List.mem_of_mem_getLast? hc) with hc | rfl
  · exact isGap_of_isDigit hc
  · rfl

theorem text_ne_nil (h : is ≠ .nil) : is.text ≠ [] := by
  cases is with
  | nil => exact absurd rfl h
  | leaf neg p rest =>
    obtain ⟨c, t, heq, -⟩ := p.head rest.after
    simp [heq]
  | list neg sub rest => simp

/-- Items do not end with a comma. -/
theorem getLast?_text (is : Items) : ∀ c ∈ is.text.getLast?, isGap c = false := by
  have hafter : ∀ {is : Items}, (∀ c ∈ is.text.getLast?, isGap c = false) →
      ∀ c ∈ is.after.getLast?, isGap c = false := by
    intro is h c hc
    rcases after_cases is with rfl | hafter
    · cases hc
    · have hne : is ≠ .nil := by
        rintro rfl
        cases hafter
      rw [hafter, ← List.singleton_append, List.getLast?_append_of_ne_nil _ (text_ne_nil hne)] at hc
      exact h c hc
  have hsign : ∀ neg, ∀ c ∈ (sign neg).getLast?, isGap c = false := by
    intro neg c hc
    rw [mem_sign (List.mem_of_mem_getLast? hc)]
    rfl
  induction is with
  | nil => simp
  | leaf neg p rest ih => exact getLast?_append (hsign neg) (getLast?_append (getLast?_portText p) (hafter ih))
  | list neg sub rest _ ih =>
    have hclose : ∀ c ∈ ('[' :: (sub.text ++ [']'])).getLast?, isGap c = false := by
      intro c hc
      rw [← List.cons_append, List.getLast?_concat] at hc
      cases hc
      rfl
    have hlast := getLast?_append (hsign neg) (getLast?_append hclose (hafter ih))
    simpa using hlast

/-! ### Reading -/

theorem reads_after (h : Reads portVarTableFind neg is.text items) : Reads portVarTableFind neg is.after items := by
  rcases after_cases is with rfl | hafter
  · exact h
  · rw [hafter]
    exact .gap rfl h

theorem reads_sign (h : Reads portVarTableFind neg s items) : Reads portVarTableFind false (sign neg ++ s) items := by
  cases neg with
  | false => exact h
  | true => exact .bang h

/-- The texts that are read. -/
theorem reads_text (hone : is.OneList) (hread : is.All PortText.Readable) (hshort : is.All PortText.Short) :
    Reads portVarTableFind false is.text is.items := by
  induction is with
  | nil => exact .done
  | leaf neg p rest ih =>
    have hport := readsPort_text hread.1 hshort.1 (head?_after rest)
    obtain ⟨c, t, heq, hc⟩ := p.head rest.after
    rw [text_leaf, heq]
    exact reads_sign (.port hc (heq ▸ hport) (reads_after (ih hone hread.2 hshort.2)))
  | list neg sub rest ihsub ih =>
    obtain ⟨hsub, hrest, hone⟩ := hone
    exact reads_sign (.list ((bracket_not_mem_after_iff (.inr rfl) rest).2 hrest) (advance_eq (getLast?_text sub))
      (ihsub hsub hread.1 hshort.1) (reads_after (ih hone hread.2 hshort.2)))

/-! ### Reading back -/

theorem Reads.nil_inv (h : Reads portVarTableFind neg s items) (hs : s = []) : items = [] := by
  cases h with
  | done => rfl
  | gap hc h => cases hs
  | bang h => cases hs
  | var hvar h => cases hs
  | list hclose hadvance htok h => cases hs
  | port hfirst hport h => cases hs

theorem Reads.comma_inv (h : Reads portVarTableFind neg s items) (hs : s = ',' :: t) :
    Reads portVarTableFind neg t items := by
  cases h with
  | done => cases hs
  | gap hc h => rwa [(List.cons.inj hs).2] at h
  | bang h => exact absurd (List.cons.inj hs).1 (by decide)
  | var hvar h => exact absurd (List.cons.inj hs).1 (by decide)
  | list hclose hadvance htok h => exact absurd (List.cons.inj hs).1 (by decide)
  | port hfirst hport h =>
    obtain ⟨rfl, -⟩ := List.cons.inj hs
    exact absurd hfirst (by decide)

theorem Reads.bang_inv (h : Reads portVarTableFind neg s items) (hs : s = '!' :: t) :
    Reads portVarTableFind true t items := by
  cases h with
  | done => cases hs
  | gap hc h =>
    obtain ⟨rfl, -⟩ := List.cons.inj hs
    exact absurd hc (by decide)
  | bang h => rwa [(List.cons.inj hs).2] at h
  | var hvar h => exact absurd (List.cons.inj hs).1 (by decide)
  | list hclose hadvance htok h => exact absurd (List.cons.inj hs).1 (by decide)
  | port hfirst hport h =>
    obtain ⟨rfl, -⟩ := List.cons.inj hs
    exact absurd hfirst (by decide)

theorem Reads.list_inv (h : Reads portVarTableFind neg s items) (hs : s = '[' :: t) :
    ∃ tok after potmp items', t = tok ++ ']' :: after ∧ ']' ∉ after ∧ Reads portVarTableFind false tok potmp ∧
      Reads portVarTableFind false after items' ∧ items = poNegateList neg potmp ++ items' := by
  cases h with
  | done => cases hs
  | gap hc h =>
    obtain ⟨rfl, -⟩ := List.cons.inj hs
    exact absurd hc (by decide)
  | bang h => exact absurd (List.cons.inj hs).1 (by decide)
  | var hvar h => exact absurd (List.cons.inj hs).1 (by decide)
  | list hclose hadvance htok h => exact ⟨_, _, _, _, (List.cons.inj hs).2.symm, hclose, htok, h, rfl⟩
  | port hfirst hport h =>
    obtain ⟨rfl, -⟩ := List.cons.inj hs
    exact absurd hfirst (by decide)

theorem Reads.port_inv {c : Char} (h : Reads portVarTableFind neg s items) (hs : s = c :: t)
    (hc : c.isDigit = true ∨ c = ':') :
    ∃ poi rest items', ReadsPort s poi rest ∧ Reads portVarTableFind false rest items' ∧
      items = poNegateList neg [poi] ++ items' := by
  have hne : ∀ {d : Char}, d.isDigit = false ∧ d ≠ ':' → ∀ {u : List Char}, d :: u ≠ c :: t := by
    rintro d ⟨hdigit, hcolon⟩ u heq
    obtain ⟨rfl, -⟩ := List.cons.inj heq
    rcases hc with h | h
    · simp [hdigit] at h
    · exact hcolon h
  cases h with
  | done => cases hs
  | gap hgap h =>
    obtain ⟨rfl, -⟩ := List.cons.inj hs
    rcases hc with hc | rfl
    · simp [isGap_of_isDigit hc] at hgap
    · exact absurd hgap (by decide)
  | bang h => exact absurd hs (hne (by decide))
  | var hvar h => exact absurd hs (hne (by decide))
  | list hclose hadvance htok h => exact absurd hs (hne (by decide))
  | port hfirst hport h => exact ⟨_, _, _, hport, h, rfl⟩

theorem reads_after_inv (h : Reads portVarTableFind neg is.after items) : Reads portVarTableFind neg is.text items := by
  rcases after_cases is with rfl | hafter
  · exact h
  · exact h.comma_inv hafter

theorem reads_sign_inv (h : Reads portVarTableFind false (sign neg ++ s) items) :
    Reads portVarTableFind neg s items := by
  cases neg with
  | false => exact h
  | true => exact h.bang_inv rfl

/-- The texts that are read, with their items. -/
theorem reads_text_inv (is : Items) (hvars : NamesFit portVarTableFind) (hshort : is.All PortText.Short)
    (h : Reads portVarTableFind false is.text items) :
    is.OneList ∧ is.All PortText.Readable ∧ items = is.items := by
  induction is generalizing items with
  | nil => exact ⟨trivial, trivial, h.nil_inv rfl⟩
  | leaf neg p rest ih =>
    obtain ⟨c, t, heq, hc⟩ := p.head rest.after
    have hgap : ∀ d ∈ (p.text ++ rest.after).head?, isGap d = false := by
      rw [heq]
      refine head?_gap ?_
      rcases hc with hc | rfl
      · exact isGap_of_isDigit hc
      · rfl
    obtain ⟨poi, rest', items', hport, hrest, rfl⟩ := (reads_sign_inv h).port_inv heq hc
    have hread := readable_of_readsPort hshort.1 (head?_after rest) hport
    obtain ⟨rfl, rfl⟩ := (readsPort_text hread hshort.1 (head?_after rest)).unique hgap hport
    obtain ⟨hone, hall, rfl⟩ := ih hshort.2 (reads_after_inv hrest)
    exact ⟨hone, ⟨hread, hall⟩, rfl⟩
  | list neg sub rest ihsub ih =>
    obtain ⟨tok, after, potmp, items', heq, hclose, htok, hafter, rfl⟩ := (reads_sign_inv h).list_inv rfl
    -- the bracket that closes the list is the last one
    obtain ⟨rfl, rfl⟩ := (balanced_text sub).unique (by decide) (htok.balanced hvars) heq
    obtain ⟨hsub, hreadsub, rfl⟩ := ihsub hshort.1 htok
    obtain ⟨hone, hread, rfl⟩ := ih hshort.2 (reads_after_inv hafter)
    exact ⟨⟨hsub, (bracket_not_mem_after_iff (.inr rfl) rest).1 hclose, hone⟩, ⟨hreadsub, hread⟩, rfl⟩

end Snort.Ports
