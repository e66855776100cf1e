import Snort.Lib.CInt
import Snort.Ports.Model
import Snort.Util.Strtoul

/-!
# Values in the texts of port lists: `sfportobject.c`

* `popGetChar2`, `poParserName`, `poParserGetShort`: characters, names and numbers at the front of a text;
* `poParsePort`, `poParseVar`: a port, a range or a variable, with what is left of the text behind it;
* `Piece`: the digits that the buffer takes; **`poParsePort_iff`**: what is read as a port or a range;
* `poParserName_eq`: what is passed over for a variable.

A parser is the text that is left of it; it holds no zero character.  Allocations succeed, and the position is left
out, which is for messages only.
-/

namespace Snort.Ports

open Snort.Util CInt

/-- The `POPERR` codes that the parser sets. -/
inductive PopErr
  | noName
  | noEndlistBracket
  | notANumber
  | extraBracket
  | invalidRange
  | duplicateEntry
  | bounds
  | badVariable
  deriving DecidableEq

/-! ### Characters, names and numbers -/

/-- `isspace`, or a comma. -/
def isGap (c : Char) : Bool := c = ' ' || (9 ≤ c.toNat && c.toNat ≤ 13) || c = ','

/-- `POPGetChar2`: the first character behind white space and commas. -/
def popGetChar2 : List Char → Option (Char × List Char)
  | [] => none
  | c :: s => if isGap c then popGetChar2 s else some (c, s)

def isNameChar (c : Char) : Bool := c.isAlphanum || c = '_' || c = '-' || c = '.'

/-- The loop of `POParserName` where the token has room for some characters; the character behind a full token is
lost. -/
def nameChars : ℕ → List Char → List Char × List Char
  | 0, s => ([], s.drop 1)
  | _ + 1, [] => ([], [])
  | room + 1, c :: s =>
    if isNameChar c then
      let r := nameChars room s
      (c :: r.1, r.2)
    else ([], c :: s)

/-- `POP_MAX_BUFFER_SIZE`. -/
def popMaxBufferSize : ℕ := 256

/-- The first character of a name; a `$` in front is skipped. -/
def nameStart (s : List Char) : Option (Char × List Char) :=
  match popGetChar2 s with
  | none => none
  | some (c, s) => if c = '$' then popGetChar2 s else some (c, s)

/-- `POParserName`. -/
def poParserName (s : List Char) : Option (List Char × List Char) :=
  match nameStart s with
  | none => none
  | some (c, s) =>
    if c.isAlphanum then
      let r := nameChars (popMaxBufferSize - 1) s
      some (c :: r.1, r.2)
    else none

/-- What may stand behind a number. -/
def endsNumber (c : Char) : Bool := c = ':' || c = ' ' || c = ']' || c = ',' || c = '\t' || c = '\n'

/-- The loop of `POParserGetShort` where the buffer has room for some digits. -/
def getDigits : ℕ → List Char → Except PopErr (List Char × List Char)
  | 0, s => .ok ([], s)
  | _ + 1, [] => .ok ([], [])
  | room + 1, c :: s =>
    if c.isDigit then
      match getDigits room s with
      | .error e => .error e
      | .ok (ds, s) => .ok (c :: ds, s)
    else if endsNumber c then .ok ([], c :: s)
    else .error .notANumber

/-- `(int) strtoul(buffer, &pend, 10)`. -/
def intOfDigits (ds : List Char) : ℤ :=
  i32 (((strtoul (ds.map fun c => BitVec.ofNat 8 c.toNat) 10).map Prod.fst).getD 0)

/-- The digits that the buffer of `POParserGetShort` holds. -/
def bufferDigits : ℕ := 31

/-- `POParserGetShort`. -/
def poParserGetShort (s : List Char) : Except PopErr (UInt16 × List Char) :=
  match getDigits bufferDigits (s.dropWhile isGap) with
  | .error e => .error e
  | .ok (ds, s) =>
    let c := intOfDigits ds
    if 65535 < c ∨ c < 0 then .error .bounds else .ok (.ofNat c.toNat, s)

/-! ### Values -/

/-- What `PortObjectAddPort` and `PortObjectAddRange` add. -/
def portItem (port : UInt16) : PortObjectItem := ⟨.port, false, port, port⟩

def rangeItem (lport hport : UInt16) : PortObjectItem := ⟨.range, false, lport, hport⟩

/-- `_POParsePort`. -/
def poParsePort (s : List Char) : Except PopErr (PortObjectItem × List Char) :=
  match poParserGetShort s with
  | .error e => .error e
  | .ok (lport, ':' :: s) =>
    match s with
    | [] => .ok (rangeItem lport 65535, [])
    | c :: t =>
      if c = ',' then .ok (rangeItem lport 65535, c :: t)
      else if ¬c.isDigit then .error .notANumber
      else
        match poParserGetShort (c :: t) with
        | .error e => .error e
        | .ok (hport, s) => if hport < lport then .error .invalidRange else .ok (rangeItem lport hport, s)
  | .ok (lport, s) => .ok (portItem lport, s)

/-- `PortObjectAddItem`: items with the same bounds are refused. -/
def portObjectAddItem (items : List PortObjectItem) (poi : PortObjectItem) : Except PopErr (List PortObjectItem) :=
  if items.any fun p => p.lport = poi.lport ∧ p.hport = poi.hport then .error .duplicateEntry
  else .ok (items ++ [poi])

/-- `PortObjectAddPortObject`. -/
def portObjectAddPortObject : (dst src : List PortObjectItem) → Except PopErr (List PortObjectItem)
  | dst, [] => .ok dst
  | dst, poi :: src =>
    match portObjectAddItem dst poi with
    | .error e => .error e
    | .ok dst => portObjectAddPortObject dst src

/-- The items of `PortObjectDup`. -/
def portObjectDup (items : List PortObjectItem) : List PortObjectItem :=
  items.foldl (fun dst poi => (portObjectAddItem dst poi).toOption.getD dst) []

/-- `_PONegateList`, where there is something to negate. -/
def poNegateList (localNeg : Bool) (items : List PortObjectItem) : List PortObjectItem :=
  if localNeg then items.map fun poi => { poi with notFlag := !poi.notFlag } else items

/-- `_POParseVar`; the items of a variable are what `PortVarTableFind` finds. -/
def poParseVar (portVarTableFind : List Char → Option (List PortObjectItem)) (s : List Char) :
    Except PopErr (List PortObjectItem × List Char) :=
  match poParserName s with
  | none => .error .noName
  | some (name, s) =>
    match portVarTableFind name with
    | none => .error .badVariable
    | some items => .ok (portObjectDup items, s)

/-! ### What is left of a text -/

theorem length_popGetChar2 {s rest : List Char} {c : Char} (h : popGetChar2 s = some (c, rest)) :
    rest.length < s.length := by
  induction s with
  | nil => cases h
  | cons d s ih =>
    rw [popGetChar2] at h
    split_ifs at h
    · have := ih h
      simp only [List.length_cons]
      omega
    · cases h
      simp

theorem length_nameChars (room : ℕ) (s : List Char) : (nameChars room s).2.length ≤ s.length := by
  induction room generalizing s with
  | zero => simp [nameChars]
  | succ room ih =>
    cases s with
    | nil => simp [nameChars]
    | cons c s =>
      rw [nameChars]
      split_ifs
      · exact (ih s).trans (by simp)
      · simp

theorem length_nameStart {s rest : List Char} {c : Char} (h : nameStart s = some (c, rest)) :
    rest.length < s.length := by
  unfold nameStart at h
  split at h
  · cases h
  · rename_i hfirst
    have hlt := length_popGetChar2 hfirst
    split_ifs at h
    · exact (length_popGetChar2 h).trans hlt
    · cases h
      exact hlt

theorem length_poParserName {s name rest : List Char} (h : poParserName s = some (name, rest)) :
    rest.length < s.length := by
  unfold poParserName at h
  split at h
  · cases h
  · rename_i t hstart
    split_ifs at h
    cases h
    exact (length_nameChars _ t).trans_lt (length_nameStart hstart)

theorem length_poParseVar {vars : List Char → Option (List PortObjectItem)} {s rest : List Char}
    {items : List PortObjectItem} (h : poParseVar vars s = .ok (items, rest)) : rest.length < s.length := by
  unfold poParseVar at h
  split at h
  · cases h
  · rename_i hname
    split at h
    · cases h
    · cases h
      exact length_poParserName hname

/-! ### Ports and ranges -/

variable {s t rest ds es : List Char} {poi : PortObjectItem}

/-- The number in the buffer is a port, once it is an `int`. -/
def InRange (ds : List Char) : Prop := 0 ≤ intOfDigits ds ∧ intOfDigits ds ≤ 65535

/-- The port that is read. -/
def portOf (ds : List Char) : UInt16 := .ofNat (intOfDigits ds).toNat

/-- The digits at the front of a text that the buffer takes, with what is left. -/
structure Piece (s ds rest : List Char) : Prop where
  eq : s = ds ++ rest
  digits : ∀ c ∈ ds, c.isDigit = true
  length_le : ds.length ≤ bufferDigits
  ends : ds.length = bufferDigits ∨ ∀ c ∈ rest.head?, endsNumber c = true
  inRange : InRange ds

theorem isDigit_of_endsNumber {c : Char} (h : endsNumber c = true) : c.isDigit = false := by
  simp only [endsNumber, Bool.or_eq_true, decide_eq_true_eq, or_assoc] at h
  rcases h with rfl | rfl | rfl | rfl | rfl | rfl <;> rfl

theorem isGap_of_isDigit {c : Char} (h : c.isDigit = true) : isGap c = false := by
  simp only [Char.isDigit, Bool.and_eq_true, decide_eq_true_eq, UInt32.le_iff_toNat_le] at h
  have hlow : 48 ≤ c.toNat := h.1
  simp only [isGap, Bool.or_eq_false_iff, Bool.and_eq_false_iff, decide_eq_false_iff_not]
  refine ⟨⟨?_, .inr (by omega)⟩, ?_⟩ <;> rintro rfl <;> exact absurd hlow (by decide)

theorem getDigits_iff {room : ℕ} :
    getDigits room s = .ok (ds, rest) ↔ s = ds ++ rest ∧ (∀ c ∈ ds, c.isDigit = true) ∧ ds.length ≤ room ∧
      (ds.length = room ∨ ∀ c ∈ rest.head?, endsNumber c = true) := by
  induction room generalizing s ds with
  | zero =>
    simp only [getDigits, Except.ok.injEq, Prod.mk.injEq, Nat.le_zero]
    constructor
    · rintro ⟨rfl, rfl⟩
      simp
    · rintro ⟨rfl, -, hds, -⟩
      simp [List.length_eq_zero_iff.1 hds]
  | succ room ih =>
    cases s with
    | nil =>
      simp only [getDigits, Except.ok.injEq, Prod.mk.injEq]
      constructor
      · rintro ⟨rfl, rfl⟩
        simp
      · rintro ⟨heq, -⟩
        obtain ⟨rfl, rfl⟩ := List.append_eq_nil_iff.1 heq.symm
        exact ⟨rfl, rfl⟩
    | cons c s =>
      rw [getDigits]
      by_cases hdigit : c.isDigit = true
      · rw [if_pos hdigit]
        constructor
        · intro h
          split at h
          · cases h
          · rename_i hrest
            cases h
            obtain ⟨rfl, hdigits, hle, hends⟩ := ih.1 hrest
            simp only [List.cons_append, List.length_cons, List.mem_cons, forall_eq_or_imp, true_and]
            exact ⟨⟨hdigit, hdigits⟩, by omega, by simpa using hends⟩
        · rintro ⟨heq, hdigits, hle, hends⟩
          cases ds with
          | nil =>
            obtain rfl : c :: s = rest := heq
            rcases hends with h | h
            · simp at h
            · exact absurd hdigit (by simp [isDigit_of_endsNumber (h c rfl)])
          | cons d ds =>
            obtain ⟨rfl, rfl⟩ := List.cons.inj heq
            have hrest : getDigits room (ds ++ rest) = .ok (ds, rest) :=
              ih.2 ⟨rfl, fun d hd => hdigits d (List.mem_cons_of_mem _ hd), by simpa using hle, by simpa using hends⟩
            simp only [List.append_eq, hrest]
      · rw [if_neg hdigit]
        constructor
        · intro h
          split_ifs at h with hends
          cases h
          simp [hends]
        · rintro ⟨heq, hdigits, hle, hends⟩
          cases ds with
          | nil =>
            obtain rfl : c :: s = rest := heq
            rcases hends with h | h
            · simp at h
            · rw [if_pos (h c rfl)]
          | cons d ds =>
            obtain ⟨rfl, -⟩ := List.cons.inj heq
            exact absurd (hdigits c List.mem_cons_self) hdigit

/-- A number that is read, where no white space is in front. -/
theorem poParserGetShort_iff {v : UInt16} (hs : ∀ c ∈ s.head?, isGap c = false) :
    poParserGetShort s = .ok (v, rest) ↔ ∃ ds, Piece s ds rest ∧ v = portOf ds := by
  have hfront : s.dropWhile isGap = s := by
    cases s with
    | nil => rfl
    | cons c s => rw [List.dropWhile_cons_of_neg (by simp [hs c rfl])]
  unfold poParserGetShort
  rw [hfront]
  constructor
  · intro h
    split at h
    · cases h
    · rename_i ds _ hds
      simp only at h
      split_ifs at h with hbounds
      obtain ⟨rfl, rfl⟩ := Prod.mk.inj (Except.ok.inj h)
      obtain ⟨heq, hdigits, hle, hends⟩ := getDigits_iff.1 hds
      exact ⟨ds, ⟨heq, hdigits, hle, hends, ⟨by omega, by omega⟩⟩, rfl⟩
  · rintro ⟨ds, h, rfl⟩
    rw [getDigits_iff.2 ⟨h.eq, h.digits, h.length_le, h.ends⟩]
    have := h.inRange
    unfold InRange at this
    simp only
    rw [if_neg (by omega), portOf]

/-- The texts that are read as a port or a range. -/
inductive ReadsPort : List Char → PortObjectItem → List Char → Prop
  | port {s ds rest : List Char} (h : Piece s ds rest) (hrest : ∀ c ∈ rest.head?, c ≠ ':') :
    ReadsPort s (portItem (portOf ds)) rest
  | open {s ds rest : List Char} (h : Piece s ds (':' :: rest)) (hrest : ∀ c ∈ rest.head?, c = ',') :
    ReadsPort s (rangeItem (portOf ds) 65535) rest
  | range {s ds es t rest : List Char} (h : Piece s ds (':' :: t)) (ht : ∃ c ∈ t.head?, c.isDigit = true)
    (h' : Piece t es rest) (hle : portOf ds ≤ portOf es) : ReadsPort s (rangeItem (portOf ds) (portOf es)) rest

/-- **Ports and ranges.** -/
theorem poParsePort_iff (hs : ∀ c ∈ s.head?, isGap c = false) :
    poParsePort s = .ok (poi, rest) ↔ ReadsPort s poi rest := by
  unfold poParsePort
  constructor
  · intro h
    split at h
    · cases h
    · -- a range
      rename_i lport t hlow
      obtain ⟨ds, hds, rfl⟩ := (poParserGetShort_iff hs).1 hlow
      split at h
      · cases h
        exact .open hds (by simp)
      · rename_i c t
        split_ifs at h with hcomma hdigit
        · cases h
          exact .open hds (by simp [hcomma])
        · have hgap : ∀ d ∈ (c :: t).head?, isGap d = false := by
            rintro d hd
            obtain rfl : c = d := by simpa using hd
            exact isGap_of_isDigit hdigit
          split at h
          · cases h
          · rename_i hport t' hhigh
            obtain ⟨es, hes, rfl⟩ := (poParserGetShort_iff hgap).1 hhigh
            split_ifs at h with hlt
            cases h
            exact .range hds ⟨c, rfl, hdigit⟩ hes (UInt16.not_lt.1 hlt)
    · -- a port
      rename_i lport t hne hlow
      cases h
      obtain ⟨ds, hds, rfl⟩ := (poParserGetShort_iff hs).1 hlow
      refine .port hds fun c hc => ?_
      rintro rfl
      obtain ⟨t', rfl⟩ : ∃ t', rest = ':' :: t' := by
        cases rest with
        | nil => cases hc
        | cons d t' => exact ⟨t', by rw [show d = ':' by simpa using hc]⟩
      exact hne t' rfl
  · intro h
    cases h with
    | port h hrest =>
      rw [(poParserGetShort_iff hs).2 ⟨_, h, rfl⟩]
      cases rest with
      | nil => rfl
      | cons c t =>
        have hc := hrest c rfl
        split
        · rename_i heq
          cases heq
        · rename_i heq
          exact absurd (List.cons.inj (Prod.mk.inj (Except.ok.inj heq)).2).1 hc
        · rename_i heq
          rw [← (Prod.mk.inj (Except.ok.inj heq)).1, ← (Prod.mk.inj (Except.ok.inj heq)).2]
    | «open» h hrest =>
      rw [(poParserGetShort_iff hs).2 ⟨_, h, rfl⟩]
      cases rest with
      | nil => rfl
      | cons c t => simp [hrest c rfl]
    | range h ht h' hle =>
      obtain ⟨c, hc, hdigit⟩ := ht
      rename_i ds es t
      cases t with
      | nil => cases hc
      | cons d t =>
        obtain rfl : d = c := by simpa using hc
        have hgap : ∀ c ∈ (d :: t).head?, isGap c = false := by
          rintro c hc
          obtain rfl : d = c := by simpa using hc
          exact isGap_of_isDigit hdigit
        have hcomma : d ≠ ',' := by
          rintro rfl
          exact absurd hdigit (by decide)
        rw [(poParserGetShort_iff hs).2 ⟨_, h, rfl⟩]
        simp only [hcomma, hdigit, if_false, not_true_eq_false, (poParserGetShort_iff hgap).2 ⟨_, h', rfl⟩]
        rw [if_neg (UInt16.not_lt.2 hle)]

/-! ### Variables -/

theorem popGetChar2_iff {c : Char} :
    popGetChar2 s = some (c, rest) ↔ ∃ g, s = g ++ c :: rest ∧ (∀ d ∈ g, isGap d = true) ∧ isGap c = false := by
  induction s with
  | nil => simp [popGetChar2]
  | cons d s ih =>
    rw [popGetChar2]
    by_cases hd : isGap d = true
    · rw [if_pos hd, ih]
      constructor
      · rintro ⟨g, rfl, hg, hc⟩
        exact ⟨d :: g, rfl, by simpa using ⟨hd, hg⟩, hc⟩
      · rintro ⟨g, heq, hg, hc⟩
        cases g with
        | nil =>
          obtain ⟨rfl, -⟩ := List.cons.inj heq
          simp [hd] at hc
        | cons e g =>
          obtain ⟨-, rfl⟩ := List.cons.inj heq
          exact ⟨g, rfl, fun d hd => hg d (List.mem_cons_of_mem _ hd), hc⟩
    · rw [if_neg hd]
      constructor
      · intro h
        obtain ⟨rfl, rfl⟩ := Prod.mk.inj (Option.some.inj h)
        exact ⟨[], rfl, by simp, by simpa using hd⟩
      · rintro ⟨g, heq, hg, hc⟩
        cases g with
        | nil =>
          obtain ⟨rfl, rfl⟩ := List.cons.inj heq
          rfl
        | cons e g =>
          obtain ⟨rfl, -⟩ := List.cons.inj heq
          exact absurd (hg d List.mem_cons_self) hd

theorem popGetChar2_eq_none_iff : popGetChar2 s = none ↔ ∀ c ∈ s, isGap c = true := by
  induction s with
  | nil => simp [popGetChar2]
  | cons c s ih =>
    rw [popGetChar2]
    by_cases hc : isGap c = true
    · simp [hc, ih]
    · simp [hc]

/-- The characters of a name, if the token has room for one more. -/
theorem nameChars_eq {room : ℕ} (h : (nameChars room s).1.length < room) :
    s = (nameChars room s).1 ++ (nameChars room s).2 ∧ (∀ c ∈ (nameChars room s).1, isNameChar c = true) ∧
      ∀ c ∈ (nameChars room s).2.head?, isNameChar c = false := by
  induction room generalizing s with
  | zero => exact absurd h (Nat.not_lt_zero _)
  | succ room ih =>
    cases s with
    | nil => simp [nameChars]
    | cons c s =>
      rw [nameChars] at h ⊢
      by_cases hc : isNameChar c = true
      · simp only [hc, if_true, List.length_cons, Nat.add_lt_add_iff_right] at h ⊢
        obtain ⟨heq, hname, hrest⟩ := ih h
        exact ⟨by rw [List.cons_append, ← heq], by simpa using ⟨hc, hname⟩, hrest⟩
      · simp [hc]

theorem nameStart_eq {c : Char} (h : nameStart s = some (c, rest)) :
    ∃ g, s = g ++ c :: rest ∧ ∀ d ∈ g, isGap d = true ∨ d = '$' := by
  unfold nameStart at h
  split at h
  · cases h
  · rename_i d t hfirst
    obtain ⟨g, rfl, hg, -⟩ := popGetChar2_iff.1 hfirst
    split_ifs at h with hdollar
    · obtain ⟨g', rfl, hg', -⟩ := popGetChar2_iff.1 h
      refine ⟨g ++ d :: g', by simp, fun e he => ?_⟩
      rcases List.mem_append.1 he with he | he
      · exact .inl (hg e he)
      · rcases List.mem_cons.1 he with rfl | he
        · exact .inr hdollar
        · exact .inl (hg' e he)
    · obtain ⟨rfl, rfl⟩ := Prod.mk.inj (Option.some.inj h)
      exact ⟨g, rfl, fun e he => .inl (hg e he)⟩

/-- **Names**: what is passed over for a name that does not fill the token. -/
theorem poParserName_eq {name : List Char} (h : poParserName s = some (name, rest))
    (hlen : name.length < popMaxBufferSize) :
    ∃ g, s = g ++ (name ++ rest) ∧ (∀ c ∈ g, isGap c = true ∨ c = '$') ∧ (∀ c ∈ name, isNameChar c = true) ∧
      ∀ c ∈ rest.head?, isNameChar c = false := by
  unfold poParserName at h
  split at h
  · cases h
  · rename_i c t hstart
    obtain ⟨g, rfl, hg⟩ := nameStart_eq hstart
    split_ifs at h with halnum
    obtain ⟨rfl, rfl⟩ := Prod.mk.inj (Option.some.inj h)
    rw [List.length_cons] at hlen
    have hroom : (nameChars (popMaxBufferSize - 1) t).1.length < popMaxBufferSize - 1 := by omega
    obtain ⟨heq, hname, hrest⟩ := nameChars_eq hroom
    have hc : isNameChar c = true := by simp [isNameChar, halnum]
    exact ⟨g, by rw [List.cons_append, ← heq], hg, by simpa using ⟨hc, hname⟩, hrest⟩

/-- No variable has a name that fills the token. -/
def NamesFit (portVarTableFind : List Char → Option (List PortObjectItem)) : Prop :=
  ∀ name, portVarTableFind name ≠ none → name.length < popMaxBufferSize

theorem poParseVar_eq {vars : List Char → Option (List PortObjectItem)} (hvars : NamesFit vars)
    {items : List PortObjectItem} (h : poParseVar vars s = .ok (items, rest)) :
    ∃ g name, s = g ++ (name ++ rest) ∧ (∀ c ∈ g, isGap c = true ∨ c = '$') ∧ (∀ c ∈ name, isNameChar c = true) ∧
      ∀ c ∈ rest.head?, isNameChar c = false := by
  unfold poParseVar at h
  split at h
  · cases h
  · rename_i name t hname
    split at h
    · cases h
    · rename_i items' hfind
      obtain ⟨rfl, rfl⟩ := Prod.mk.inj (Except.ok.inj h)
      obtain ⟨g, hg⟩ := poParserName_eq hname (hvars name (by simp [hfind]))
      exact ⟨g, name, hg⟩

end Snort.Ports
