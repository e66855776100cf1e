import Snort.Sdf.Search

/-!
# A single pattern

* `matchLoop`, `findPiiAt`: the search with its indices;
* `Character`: the characters and escape sequences of a pattern, each with its optional mark;
* `Reads`: the language of a pattern;
* `matchLoop_written`: the loop comes to the result of `matchPattern`;
* **`findPiiAt_correct_iff`**: when a single pattern is searched for as it is to be.
-/

namespace Snort.Sdf

/-! ### The search with its indices -/

/-- A character of a pattern, with the NUL at its end. -/
def charAt (pattern : List UInt8) (i : ℕ) : UInt8 := pattern.getD i 0

/-- The loop of `FindPiiRecursively`: `*buf_index` and `node_match` behind it.  The indices have 16 bits. -/
def matchLoop (pattern buf : List UInt8) : ℕ → ℕ → ℕ → Bool → Option (ℕ × Bool)
  | 0, _, _, _ => none
  | fuel + 1, patternIndex, bufIndex, nodeMatch =>
    match buf[bufIndex]? with
    | none => some (bufIndex, nodeMatch)
    | some b =>
      if charAt pattern patternIndex ≠ 0 ∧ nodeMatch then
        let escape := charAt pattern patternIndex = backslash ∧ charAt pattern (patternIndex + 1) ≠ 0
        let patternIndex := if escape then (patternIndex + 1) % 2 ^ 16 else patternIndex
        let c := charAt pattern patternIndex
        let nodeMatch := if escape then escapeMatches c b else b = c
        if charAt pattern (patternIndex + 1) = optionalMark then
          matchLoop pattern buf fuel ((patternIndex + 2) % 2 ^ 16)
            (if nodeMatch then (bufIndex + 1) % 2 ^ 16 else bufIndex) true
        else matchLoop pattern buf fuel ((patternIndex + 1) % 2 ^ 16) ((bufIndex + 1) % 2 ^ 16) nodeMatch
      else some (bufIndex, nodeMatch)

mutual

/-- `FindPiiRecursively`: the node and `*buf_index`. -/
def findPiiRecursivelyAt (fuel : ℕ) : SdfTreeNode → List UInt8 → ℕ → Option (Option SdfTreeNode × ℕ)
  | .node pattern optionData children, buf, bufIndex =>
    if buf.length ≤ bufIndex then some (none, bufIndex)
    else
      (matchLoop pattern buf fuel 0 bufIndex true).bind fun matched =>
        if matched.2 then
          (findPiiAt fuel children buf matched.1).map fun found =>
            if found.1.isSome then found
            else if optionData = [] then (none, bufIndex)
            else (some (.node pattern optionData children), found.2)
        else some (none, bufIndex)

/-- `FindPii`, and the loop over the children of a node. -/
def findPiiAt (fuel : ℕ) : List SdfTreeNode → List UInt8 → ℕ → Option (Option SdfTreeNode × ℕ)
  | [], _, bufIndex => some (none, bufIndex)
  | child :: children, buf, bufIndex =>
    (findPiiRecursivelyAt fuel child buf bufIndex).bind fun found =>
      if found.1.isSome then some found else findPiiAt fuel children buf found.2

end

/-! ### Patterns as characters -/

/-- A literal character, or one behind a backslash; it may have an optional mark. -/
structure Character where
  escaped : Bool
  char : UInt8
  optional : Bool
  pos : char ≠ 0
  plain : escaped = false → char ≠ backslash ∧ char ≠ optionalMark

/-- The character without its optional mark. -/
def Character.text (c : Character) : List UInt8 := if c.escaped then [backslash, c.char] else [c.char]

/-- The bytes that it matches. -/
def Character.accepts (c : Character) (b : UInt8) : Bool := if c.escaped then escapeMatches c.char b else b = c.char

/-- The character as it stands in the pattern. -/
def Character.written (c : Character) : List UInt8 := c.text ++ if c.optional then [optionalMark] else []

/-- The pattern of some characters. -/
def written (cs : List Character) : List UInt8 := cs.flatMap Character.written

/-- **The language of a pattern**: it matches the bytes of the buffer in front of the rest. -/
inductive Reads : List Character → List UInt8 → List UInt8 → Prop
  | nil (buf : List UInt8) : Reads [] buf buf
  | char {c : Character} {cs : List Character} {b : UInt8} {buf rest : List UInt8} :
    c.accepts b = true → Reads cs buf rest → Reads (c :: cs) (b :: buf) rest
  | skip {c : Character} {cs : List Character} {buf rest : List UInt8} :
    c.optional = true → Reads cs buf rest → Reads (c :: cs) buf rest

/-- The characters that may come next. -/
def firsts : List Character → List Character
  | [] => []
  | c :: cs => c :: if c.optional then firsts cs else []

/-- No character that may follow an optional one matches the same byte. -/
def Apart : List Character → Prop
  | [] => True
  | c :: cs => (c.optional = true → ∀ d ∈ firsts cs, ∀ b, c.accepts b = true → d.accepts b = false) ∧ Apart cs

/-- `FindPii` does as it is to: it returns a node and advances the index if the pattern matches what comes next in the
buffer, and leaves the index alone otherwise. -/
def Correct (cs : List Character) (buf : List UInt8) (bufIndex : ℕ) : Option SdfTreeNode × ℕ → Prop
  | (some _, i) => bufIndex ≤ i ∧ i ≤ buf.length ∧ Reads cs (buf.drop bufIndex) (buf.drop i)
  | (none, i) => i = bufIndex ∧ ¬∃ rest, Reads cs (buf.drop bufIndex) rest

/-- The buffer ends in the middle of the pattern, in front of a character that is not optional. -/
def Stops (cs : List Character) (buf : List UInt8) : Prop :=
  ∃ vs ws, cs = vs ++ ws ∧ Reads vs buf [] ∧ ∃ c ∈ ws, c.optional = false

/-- What is left of the buffer is long enough: the pattern may not match nothing where there is nothing left, and what is
left does not end in the middle of the pattern. -/
structure LongEnough (cs : List Character) (buf : List UInt8) : Prop where
  nonempty : buf = [] → ∃ c ∈ cs, c.optional = false
  whole : buf ≠ [] → ¬Stops cs buf

variable {c : Character} {cs : List Character} {pre p buf : List UInt8}

/-! ### The loop -/

theorem charAt_append (pre p : List UInt8) (n : ℕ) : charAt (pre ++ p) (pre.length + n) = charAt p n := by
  simp [charAt, List.getElem?_append_right]

theorem Character.isUnit (c : Character) : IsUnit c.text c.accepts := by
  obtain ⟨escaped, char, optional, pos, plain⟩ := c
  cases escaped with
  | true => exact .escape char
  | false => exact .char (plain rfl).1

theorem written_cons (c : Character) (cs : List Character) : written (c :: cs) = c.written ++ written cs := rfl

/-- What is behind a character starts with no optional mark. -/
theorem charAt_written (cs : List Character) : charAt (written cs) 0 ≠ optionalMark := by
  cases cs with
  | nil => decide
  | cons c cs =>
    obtain ⟨escaped, char, optional, pos, plain⟩ := c
    cases escaped with
    | true => exact (by decide : backslash ≠ optionalMark)
    | false => exact (plain rfl).2

/-- `matchPattern` takes a character. -/
theorem matchPattern_written (c : Character) (cs : List Character) (b : UInt8) (buf : List UInt8) :
    matchPattern (written (c :: cs)) (b :: buf) =
      if c.accepts b then matchPattern (written cs) buf
      else if c.optional then matchPattern (written cs) (b :: buf) else none := by
  have hhead : (written cs).head? ≠ some optionalMark := by
    have h := charAt_written cs
    cases hcs : written cs with
    | nil => simp
    | cons d p =>
      rw [hcs] at h
      simpa [charAt] using h
  rw [written_cons, Character.written, List.append_assoc]
  by_cases hopt : c.optional = true
  · rw [if_pos hopt, if_pos hopt, List.singleton_append, matchPattern_optional c.isUnit]
    split_ifs <;> rfl
  · rw [if_neg hopt, if_neg hopt, List.nil_append, matchPattern_required c.isUnit hhead]

/-- What the loop sees of a character. -/
theorem Character.charAt_written (c : Character) (p : List UInt8) :
    charAt (c.written ++ p) 0 ≠ 0 ∧
      (charAt (c.written ++ p) 0 = backslash ∧ charAt (c.written ++ p) 1 ≠ 0 ↔ c.escaped = true) ∧
      charAt (c.written ++ p) (if c.escaped then 1 else 0) = c.char := by
  obtain ⟨escaped, char, optional, pos, plain⟩ := c
  cases escaped with
  | true => exact ⟨(by decide : backslash ≠ 0), iff_of_true ⟨rfl, pos⟩ rfl, rfl⟩
  | false => exact ⟨pos, iff_of_false (fun h => (plain rfl).1 h.1) Bool.false_ne_true, rfl⟩

theorem Character.length_written (c : Character) :
    c.written.length = (if c.escaped then 1 else 0) + 1 + if c.optional then 1 else 0 := by
  obtain ⟨escaped, char, optional, pos, plain⟩ := c
  cases escaped <;> cases optional <;> rfl

theorem Character.charAt_behind (c : Character) {p : List UInt8} (hp : charAt p 0 ≠ optionalMark) :
    charAt (c.written ++ p) ((if c.escaped then 1 else 0) + 1) = optionalMark ↔ c.optional = true := by
  obtain ⟨escaped, char, optional, pos, plain⟩ := c
  cases escaped <;> cases optional
  · exact iff_of_false hp Bool.false_ne_true
  · exact iff_of_true rfl rfl
  · exact iff_of_false hp Bool.false_ne_true
  · exact iff_of_true rfl rfl

/-- So does the loop. -/
theorem matchLoop_succ {pattern : List UInt8} {b : UInt8} {i fuel : ℕ} (h : pattern = pre ++ written (c :: cs))
    (hshort : pattern.length < 2 ^ 16) (hb : buf[i]? = some b) (hbuf : buf.length < 2 ^ 16) :
    matchLoop pattern buf (fuel + 1) pre.length i true =
      if c.accepts b then matchLoop pattern buf fuel (pre ++ c.written).length (i + 1) true
      else if c.optional then matchLoop pattern buf fuel (pre ++ c.written).length i true
      else matchLoop pattern buf fuel (pre ++ c.written).length (i + 1) false := by
  have hi := (List.getElem?_eq_some_iff.1 hb).1
  have hlen := congrArg List.length h
  have hwritten := c.length_written
  rw [written_cons, List.length_append, List.length_append] at hlen
  have hat : ∀ n, charAt pattern (pre.length + n) = charAt (c.written ++ written cs) n := fun n => by
    rw [h, written_cons, charAt_append]
  obtain ⟨hne, hescape, hchar⟩ := c.charAt_written (written cs)
  have hmark := c.charAt_behind (charAt_written cs)
  rw [← hat] at hchar hmark
  rw [← Nat.add_assoc] at hmark
  rw [← hat, ← hat, Nat.add_zero] at hescape
  rw [← hat, Nat.add_zero] at hne
  have hskip : (if c.escaped then (pre.length + 1) % 2 ^ 16 else pre.length) =
      pre.length + if c.escaped then 1 else 0 := by
    split_ifs
    · exact Nat.mod_eq_of_lt (by omega)
    · rfl
  rw [matchLoop, hb, List.length_append, hwritten]
  dsimp only
  rw [if_pos ⟨hne, rfl⟩]
  simp only [hescape, hskip, hchar]
  rw [show (if c.escaped = true then escapeMatches c.char b else decide (b = c.char)) = c.accepts b from rfl,
    Nat.mod_eq_of_lt (show i + 1 < 2 ^ 16 by omega)]
  by_cases hopt : c.optional = true
  · rw [if_pos hopt] at hwritten ⊢
    rw [if_pos (hmark.2 hopt), Nat.mod_eq_of_lt (by omega)]
    simp only [hopt, if_true, Nat.add_assoc]
    split_ifs <;> rfl
  · rw [if_neg hopt] at hwritten ⊢
    rw [if_neg (mt hmark.1 hopt), Nat.mod_eq_of_lt (by omega), if_neg hopt]
    simp only [Nat.add_assoc, Nat.add_zero]
    cases c.accepts b <;> rfl

/-- **The loop** does what `matchPattern` does on the rest of the pattern and of the buffer. -/
theorem matchLoop_written {pattern : List UInt8} {i fuel : ℕ} (h : pattern = pre ++ written cs)
    (hshort : pattern.length < 2 ^ 16) (hbuf : buf.length < 2 ^ 16) (hi : i ≤ buf.length) (hfuel : cs.length + 1 < fuel) :
    (∃ j ≥ i, j ≤ buf.length ∧ matchLoop pattern buf fuel pre.length i true = some (j, true) ∧
      matchPattern (written cs) (buf.drop i) = some (buf.drop j)) ∨
    (∃ j, matchLoop pattern buf fuel pre.length i true = some (j, false)) ∧
      matchPattern (written cs) (buf.drop i) = none := by
  induction cs generalizing pre i fuel with
  | nil =>
    obtain ⟨fuel, rfl⟩ : ∃ m, fuel = m + 1 := ⟨fuel - 1, by omega⟩
    have hend : charAt pattern pre.length = 0 := by simp [h, written, charAt]
    refine Or.inl ⟨i, le_rfl, hi, ?_, matchPattern_nil_left _⟩
    rw [matchLoop]
    cases buf[i]? with
    | none => rfl
    | some b => exact if_neg fun hgo => hgo.1 hend
  | cons c cs ih =>
    rw [List.length_cons] at hfuel
    obtain ⟨fuel, rfl⟩ : ∃ m, fuel = m + 1 := ⟨fuel - 1, by omega⟩
    have h' : pattern = (pre ++ c.written) ++ written cs := by rw [h, written_cons, List.append_assoc]
    rcases Nat.lt_or_ge i buf.length with hlt | hge
    · rw [matchLoop_succ h hshort (List.getElem?_eq_getElem hlt) hbuf, List.drop_eq_getElem_cons hlt, matchPattern_written]
      split_ifs
      · obtain ⟨j, hj, hle, hloop, hmatch⟩ | hnone := ih h' (show i + 1 ≤ buf.length by omega) (show _ < fuel by omega)
        · exact Or.inl ⟨j, by omega, hle, hloop, hmatch⟩
        · exact Or.inr hnone
      · rw [← List.drop_eq_getElem_cons hlt]
        exact ih h' hi (by omega)
      · obtain ⟨fuel, rfl⟩ : ∃ m, fuel = m + 1 := ⟨fuel - 1, by omega⟩
        refine Or.inr ⟨⟨i + 1, ?_⟩, rfl⟩
        rw [matchLoop]
        cases buf[i + 1]? with
        | none => rfl
        | some b => exact if_neg fun hgo => Bool.false_ne_true hgo.2
    · obtain rfl : i = buf.length := le_antisymm hi hge
      refine Or.inl ⟨buf.length, le_rfl, le_rfl, ?_, ?_⟩
      · rw [matchLoop, List.getElem?_eq_none le_rfl]
      · rw [List.drop_length, matchPattern_nil_right]

/-! ### The language -/

theorem reads_nil_iff : (∃ rest, Reads cs [] rest) ↔ ∀ c ∈ cs, c.optional = true := by
  induction cs with
  | nil => exact iff_of_true ⟨[], .nil []⟩ (by simp)
  | cons c cs ih =>
    rw [List.forall_mem_cons, ← ih]
    constructor
    · rintro ⟨rest, h⟩
      cases h with
      | skip hopt hreads => exact ⟨hopt, rest, hreads⟩
    · rintro ⟨hopt, rest, hreads⟩
      exact ⟨rest, .skip hopt hreads⟩

theorem reads_self (h : ∀ c ∈ cs, c.optional = true) (buf : List UInt8) : Reads cs buf buf := by
  induction cs with
  | nil => exact .nil buf
  | cons c cs ih =>
    obtain ⟨hopt, hall⟩ := List.forall_mem_cons.1 h
    exact .skip hopt (ih hall)

/-- What starts with a byte that no first character matches is not read. -/
theorem Reads.rest_eq {vs : List Character} (ws : List Character) {b : UInt8} {rest : List UInt8}
    (h : Reads vs (b :: buf) rest) (hfirsts : ∀ d ∈ firsts (vs ++ ws), d.accepts b = false) :
    rest = b :: buf ∧ ∀ c ∈ vs, c.optional = true := by
  induction vs with
  | nil =>
    cases h with
    | nil => exact ⟨rfl, by simp⟩
  | cons c vs ih =>
    cases h with
    | char haccepts _ => exact absurd haccepts (by rw [hfirsts c List.mem_cons_self]; exact Bool.false_ne_true)
    | skip hopt hreads =>
      rw [List.cons_append, firsts, if_pos hopt] at hfirsts
      obtain ⟨hrest, hall⟩ := ih hreads fun d hd => hfirsts d (List.mem_cons_of_mem _ hd)
      exact ⟨hrest, List.forall_mem_cons.2 ⟨hopt, hall⟩⟩

theorem stops_nil_iff : Stops cs [] ↔ ∃ c ∈ cs, c.optional = false := by
  constructor
  · rintro ⟨vs, ws, rfl, -, c, hc, hopt⟩
    exact ⟨c, List.mem_append_right _ hc, hopt⟩
  · exact fun h => ⟨[], cs, rfl, .nil [], h⟩

theorem stops_cons_iff {b : UInt8} : Stops (c :: cs) (b :: buf) ↔
    c.accepts b = true ∧ Stops cs buf ∨ c.optional = true ∧ Stops cs (b :: buf) := by
  constructor
  · rintro ⟨vs, ws, hsplit, hreads, hrest⟩
    cases hreads with
    | char haccepts hreads =>
      obtain ⟨rfl, rfl⟩ := List.cons.inj hsplit
      exact Or.inl ⟨haccepts, _, ws, rfl, hreads, hrest⟩
    | skip hopt hreads =>
      obtain ⟨rfl, rfl⟩ := List.cons.inj hsplit
      exact Or.inr ⟨hopt, _, ws, rfl, hreads, hrest⟩
  · rintro (⟨haccepts, vs, ws, rfl, hreads, hrest⟩ | ⟨hopt, vs, ws, rfl, hreads, hrest⟩)
    · exact ⟨c :: vs, ws, rfl, .char haccepts hreads, hrest⟩
    · exact ⟨c :: vs, ws, rfl, .skip hopt hreads, hrest⟩

theorem exists_reads_cons_iff {b : UInt8} : (∃ rest, Reads (c :: cs) (b :: buf) rest) ↔
    (c.accepts b = true ∧ ∃ rest, Reads cs buf rest) ∨ (c.optional = true ∧ ∃ rest, Reads cs (b :: buf) rest) := by
  constructor
  · rintro ⟨rest, hreads⟩
    cases hreads with
    | char haccepts hreads => exact Or.inl ⟨haccepts, rest, hreads⟩
    | skip hopt hreads => exact Or.inr ⟨hopt, rest, hreads⟩
  · rintro (⟨haccepts, rest, hreads⟩ | ⟨hopt, rest, hreads⟩)
    · exact ⟨rest, .char haccepts hreads⟩
    · exact ⟨rest, .skip hopt hreads⟩

/-- **What `matchPattern` comes to**: the pattern matches, the buffer ends in the middle of it, or neither. -/
theorem matchPattern_cases (h : Apart cs) (buf : List UInt8) :
    (∃ rest, matchPattern (written cs) buf = some rest ∧ Reads cs buf rest ∧ ¬Stops cs buf) ∨
    (matchPattern (written cs) buf = some [] ∧ Stops cs buf ∧ ¬∃ rest, Reads cs buf rest) ∨
    (matchPattern (written cs) buf = none ∧ ¬Stops cs buf ∧ ¬∃ rest, Reads cs buf rest) := by
  induction cs generalizing buf with
  | nil =>
    refine Or.inl ⟨buf, matchPattern_nil_left _, .nil buf, ?_⟩
    rintro ⟨vs, ws, hsplit, -, c, hc, -⟩
    rw [(List.append_eq_nil_iff.1 hsplit.symm).2] at hc
    exact absurd hc List.not_mem_nil
  | cons c cs ih =>
    cases buf with
    | nil =>
      by_cases hall : ∀ d ∈ c :: cs, d.optional = true
      · refine Or.inl ⟨[], matchPattern_nil_right _, reads_self hall [], ?_⟩
        rw [stops_nil_iff]
        rintro ⟨d, hd, hopt⟩
        exact Bool.false_ne_true (hopt.symm.trans (hall d hd))
      · refine Or.inr (Or.inl ⟨matchPattern_nil_right _, ?_, mt reads_nil_iff.1 hall⟩)
        rw [stops_nil_iff]
        simp only [not_forall, Bool.not_eq_true] at hall
        obtain ⟨d, hd, hopt⟩ := hall
        exact ⟨d, hd, hopt⟩
    | cons b buf =>
      obtain ⟨hapart, h⟩ := h
      rw [matchPattern_written, stops_cons_iff, exists_reads_cons_iff]
      by_cases haccepts : c.accepts b = true
      · rw [if_pos haccepts]
        -- no first character behind an optional one matches the byte as well
        have hfirsts : c.optional = true → ∀ d ∈ firsts cs, d.accepts b = false := fun hopt d hd =>
          hapart hopt d hd b haccepts
        have hstops : ¬(c.optional = true ∧ Stops cs (b :: buf)) := by
          rintro ⟨hopt, vs, ws, rfl, hreads, -⟩
          exact absurd (hreads.rest_eq ws (hfirsts hopt)).1 (List.cons_ne_nil _ _).symm
        have hreads : c.optional = true ∧ (∃ rest, Reads cs (b :: buf) rest) → ∃ rest, Reads cs buf rest := by
          rintro ⟨hopt, rest, hreads⟩
          have hall := (hreads.rest_eq [] (by rw [List.append_nil]; exact hfirsts hopt)).2
          exact ⟨buf, reads_self hall buf⟩
        rcases ih h buf with ⟨rest, hmatch, hread, hnot⟩ | ⟨hmatch, hstop, hnot⟩ | ⟨hmatch, hstop, hnot⟩
        · exact Or.inl ⟨rest, hmatch, .char haccepts hread, by tauto⟩
        · exact Or.inr (Or.inl ⟨hmatch, Or.inl ⟨haccepts, hstop⟩, by tauto⟩)
        · exact Or.inr (Or.inr ⟨hmatch, by tauto, by tauto⟩)
      · rw [if_neg haccepts]
        by_cases hopt : c.optional = true
        · rw [if_pos hopt]
          rcases ih h (b :: buf) with ⟨rest, hmatch, hread, hnot⟩ | ⟨hmatch, hstop, hnot⟩ | ⟨hmatch, hstop, hnot⟩
          · exact Or.inl ⟨rest, hmatch, .skip hopt hread, by tauto⟩
          · exact Or.inr (Or.inl ⟨hmatch, Or.inr ⟨hopt, hstop⟩, by tauto⟩)
          · exact Or.inr (Or.inr ⟨hmatch, by tauto, by tauto⟩)
        · rw [if_neg hopt]
          exact Or.inr (Or.inr ⟨rfl, by tauto, by tauto⟩)

/-! ### A tree with one pattern -/

theorem findPiiAt_singleton (fuel : ℕ) (data : SDFOptionData) (buf : List UInt8) (bufIndex : ℕ) :
    findPiiAt fuel (piiTree [data]) buf bufIndex =
      if buf.length ≤ bufIndex then some (none, bufIndex)
      else (matchLoop data.pii buf fuel 0 bufIndex true).map fun matched =>
        if matched.2 then (some (.node data.pii [data] []), matched.1) else (none, bufIndex) := by
  have htree : piiTree [data] = [.node data.pii [data] []] := rfl
  rw [htree, findPiiAt, findPiiRecursivelyAt]
  by_cases hend : buf.length ≤ bufIndex
  · rw [if_pos hend, if_pos hend]
    rfl
  · rw [if_neg hend, if_neg hend]
    cases matchLoop data.pii buf fuel 0 bufIndex true with
    | none => rfl
    | some matched =>
      obtain ⟨i, matched⟩ := matched
      cases matched <;> simp [findPiiAt]

/-- **A single pattern**: `FindPii` comes to a result, and it is the right one exactly when the buffer is long enough. -/
theorem findPiiAt_correct_iff (data : SDFOptionData) (cs : List Character) (hdata : data.pii = written cs)
    (hapart : Apart cs) (buf : List UInt8) (hbuf : buf.length < 2 ^ 16) (bufIndex fuel : ℕ) (hfuel : cs.length + 1 < fuel) :
    ∃ r, findPiiAt fuel (piiTree [data]) buf bufIndex = some r ∧
      (Correct cs buf bufIndex r ↔ LongEnough cs (buf.drop bufIndex)) := by
  rw [findPiiAt_singleton]
  by_cases hend : buf.length ≤ bufIndex
  · rw [if_pos hend, List.drop_eq_nil_of_le hend]
    refine ⟨_, rfl, ?_⟩
    rw [Correct, List.drop_eq_nil_of_le hend, reads_nil_iff]
    constructor
    · rintro ⟨-, hsome⟩
      exact ⟨fun _ => by simpa using hsome, fun hne => absurd rfl hne⟩
    · exact fun h => ⟨rfl, by simpa using h.nonempty rfl⟩
  · rw [if_neg hend]
    have hne : buf.drop bufIndex ≠ [] := by
      rw [ne_eq, List.drop_eq_nil_iff]
      exact hend
    have hshort := data.short
    rw [hdata] at hshort ⊢
    have hcases := matchPattern_cases hapart (buf.drop bufIndex)
    have hlong : LongEnough cs (buf.drop bufIndex) ↔ ¬Stops cs (buf.drop bufIndex) :=
      ⟨fun h => h.whole hne, fun h => ⟨fun hnil => absurd hnil hne, fun _ => h⟩⟩
    rw [hlong]
    obtain ⟨j, hj, hle, hloop, hmatch⟩ | ⟨⟨j, hloop⟩, hmatch⟩ :=
      matchLoop_written (show written cs = [] ++ written cs from rfl) hshort hbuf (not_le.1 hend).le hfuel
    · rw [List.length_nil] at hloop
      refine ⟨_, by rw [hloop]; rfl, ?_⟩
      rw [hmatch] at hcases
      dsimp only
      rw [if_pos rfl, Correct]
      rcases hcases with ⟨rest, hrest, hreads, hstops⟩ | ⟨hrest, hstops, hreads⟩ | ⟨hrest, -⟩
      · obtain rfl := Option.some.inj hrest
        exact iff_of_true ⟨hj, hle, hreads⟩ hstops
      · exact iff_of_false (fun h => hreads ⟨_, h.2.2⟩) (not_not.2 hstops)
      · cases hrest
    · rw [List.length_nil] at hloop
      refine ⟨_, by rw [hloop]; rfl, ?_⟩
      rw [hmatch] at hcases
      rcases hcases with ⟨rest, hrest, -⟩ | ⟨hrest, -⟩ | ⟨-, hstops, hreads⟩
      · cases hrest
      · cases hrest
      · exact iff_of_true ⟨rfl, hreads⟩ hstops

/-- The pattern `ab`. -/
def literalAB : List Character :=
  [⟨false, 97, false, by decide, by decide⟩, ⟨false, 98, false, by decide, by decide⟩]

theorem apart_literalAB : Apart literalAB := by simp [Apart, literalAB]

theorem findPiiAt_correct_iff_ab :
    ∃ r, findPiiAt 4 (piiTree [ab]) [97, 98, 99] 0 = some r ∧
      (Correct literalAB [97, 98, 99] 0 r ↔ LongEnough literalAB [97, 98, 99]) :=
  findPiiAt_correct_iff ab literalAB rfl apart_literalAB [97, 98, 99] (by decide) 0 4 (by decide)

/-- The pattern `ab` is found in the buffer `a`. -/
theorem ab_found_in_a : ∃ n, findPiiAt 4 (piiTree [ab]) [97] 0 = some (some n, 1) ∧
    ¬Correct literalAB [97] 0 (some n, 1) := by
  refine ⟨_, rfl, ?_⟩
  rintro ⟨-, -, hreads⟩
  cases hreads with
  | char _ hreads =>
    cases hreads with
    | skip hopt _ => exact Bool.false_ne_true hopt
  | skip hopt _ => exact Bool.false_ne_true hopt

end Snort.Sdf
