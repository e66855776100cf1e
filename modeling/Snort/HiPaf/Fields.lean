import Snort.HiPaf.Lines

/-!
# Header fields

What the table makes of an unfolded header line.

* `scan_match`, `scan_other`: one byte against one row.
* `contentLength`, `isChunked`: the two fields that count, read off a line without the table.
* **`feed_field`**: the table does to the state what the field of the line says.
-/

namespace Snort.HiPaf

open Scanner

/-! ### One byte against one row -/

theorem findRow_stable {c : Byte} (n : ℕ) : ∀ {i : ℕ},
    (findRow c n i).event = any ∨ (findRow c n i).event = c →
      findRow c (n + 1) i = findRow c n i := by
  induction n with
  | zero => exact fun h => if_pos h
  | succ n ih =>
    intro i h
    by_cases hrow : (row i).event = any ∨ (row i).event = c
    · exact (show findRow c (n + 2) i = row i from if_pos hrow).trans
        (show findRow c (n + 1) i = row i from if_pos hrow).symm
    · have hlong : findRow c (n + 2) i = findRow c (n + 1) (row i).other := if_neg hrow
      have hshort : findRow c (n + 1) i = findRow c n (row i).other := if_neg hrow
      rw [hshort] at h
      rw [hlong, hshort, ih h]

theorem findRow_other {c : Byte} {i : ℕ} (hi : i < hiFsm.length) (hany : (row i).event ≠ any)
    (hc : (row i).event ≠ c) : findRow c 4 i = findRow c 4 (row i).other := by
  have hmatch := findRow_matches c hi
  have hstep : findRow c 4 i = findRow c 3 (row i).other := if_neg (not_or.2 ⟨hany, hc⟩)
  rw [hstep] at hmatch ⊢
  exact (findRow_stable 3 hmatch).symm

/-- The byte matches the row of the state. -/
theorem scan_match {s : HiState} {c : Byte}
    (h : (row s.fsm).event = any ∨ (row s.fsm).event = fold c) :
    hiScanFsm s c =
      hiExec { s with fsm := (row s.fsm).matched } (row s.fsm).action (fold c) := by
  have hrow : findRow (fold c) 4 s.fsm = row s.fsm := if_pos h
  rw [hiScanFsm, hrow]

/-- The byte does not match the row of the state. -/
theorem scan_other {s : HiState} {c : Byte} (hs : s.fsm < hiFsm.length)
    (hany : (row s.fsm).event ≠ any) (hc : (row s.fsm).event ≠ fold c) :
    hiScanFsm s c = hiScanFsm { s with fsm := (row s.fsm).other } c := by
  rw [hiScanFsm, hiScanFsm, findRow_other hs hany hc]

/-- A state in another row. -/
def HiState.at (s : HiState) (i : ℕ) : HiState := { s with fsm := i }

@[simp] theorem HiState.at_fsm (s : HiState) (i : ℕ) : (s.at i).fsm = i := rfl

@[simp] theorem HiState.at_at (s : HiState) (i j : ℕ) : (s.at i).at j = s.at j := rfl

theorem feed_match {s : HiState} {i j : ℕ} {c : Byte} (l : List Byte)
    (h : (row i).event = any ∨ (row i).event = fold c) (hmatched : (row i).matched = j) :
    feed (s.at i) (c :: l) = feed (hiExec (s.at j) (row i).action (fold c)).2 l := by
  rw [feed_cons, scan_match h, ← hmatched]
  rfl

theorem feed_nop {s : HiState} {i j : ℕ} {c : Byte} (l : List Byte)
    (h : (row i).event = any ∨ (row i).event = fold c) (hmatched : (row i).matched = j)
    (haction : (row i).action = .nop) : feed (s.at i) (c :: l) = feed (s.at j) l := by
  rw [feed_match l h hmatched, haction]
  rfl

theorem feed_other {s : HiState} {i j : ℕ} {c : Byte} (l : List Byte) (hi : i < hiFsm.length)
    (hany : (row i).event ≠ any) (hc : (row i).event ≠ fold c) (hother : (row i).other = j) :
    feed (s.at i) (c :: l) = feed (s.at j) (c :: l) := by
  rw [feed_cons, feed_cons, scan_other hi hany hc, ← hother]
  rfl

/-! ### Words -/

theorem fold_eol : fold eol = eol := by decide

/-- To the end of a line that does not matter. -/
theorem feed_z9 (s : HiState) (l : List Byte) (hl : eol ∉ l) :
    feed (s.at z9) (l ++ [eol]) = s.at z2 := by
  induction l with
  | nil => exact feed_nop [] (Or.inr rfl) rfl rfl
  | cons c l ih =>
    have hne := List.ne_of_not_mem_cons hl
    have hrow : (row z9).event ≠ fold c := fun h => fold_ne_eol c hne.symm h.symm
    rw [List.cons_append, feed_other _ (by decide) (by decide) hrow (show _ = z9 + 1 by decide),
      feed_nop _ (Or.inl (by decide)) (show _ = z9 by decide) (by decide)]
    exact ih (List.not_mem_of_not_mem_cons hl)

/-- Rows that match a word; a byte that does not belong to it leads to the end of the line. -/
def Word : ℕ → List Byte → Prop
  | _, [] => True
  | z, x :: w => z < hiFsm.length ∧ (row z).event = x ∧ x ≠ any ∧ x ≠ eol ∧ (row z).matched = z + 1 ∧
      (row z).action = .nop ∧ (row z).other = z9 ∧ Word (z + 1) w

instance decidableWord : ∀ z w, Decidable (Word z w)
  | _, [] => inferInstanceAs (Decidable True)
  | z, x :: w =>
    have := decidableWord (z + 1) w
    inferInstanceAs (Decidable (z < hiFsm.length ∧ (row z).event = x ∧ x ≠ any ∧ x ≠ eol ∧
      (row z).matched = z + 1 ∧ (row z).action = .nop ∧ (row z).other = z9 ∧ Word (z + 1) w))

/-- What follows a word, in any case, at the start of a list. -/
def stripWord : List Byte → List Byte → Option (List Byte)
  | [], l => some l
  | _ :: _, [] => none
  | x :: w, c :: l => if fold c = x then stripWord w l else none

theorem feed_word {w : List Byte} : ∀ {z : ℕ} {l rest : List Byte} (s : HiState), Word z w →
    stripWord w l = some rest → feed (s.at z) l = feed (s.at (z + w.length)) rest := by
  induction w with
  | nil =>
    intro z l rest s _ h
    cases h
    rfl
  | cons x w ih =>
    intro z l rest s hw h
    obtain ⟨-, hevent, -, -, hmatched, haction, -, hw⟩ := hw
    cases l with
    | nil => cases h
    | cons c l =>
      rw [stripWord] at h
      split_ifs at h with hc
      rw [feed_nop l (Or.inr (hevent.trans hc.symm)) hmatched haction, ih s hw h, List.length_cons,
        Nat.add_assoc, Nat.add_comm 1]

theorem feed_word_none {w : List Byte} : ∀ {z : ℕ} {l : List Byte} (s : HiState), Word z w →
    eol ∉ l → stripWord w l = none → feed (s.at z) (l ++ [eol]) = s.at z2 := by
  induction w with
  | nil =>
    intro z l s _ _ h
    cases h
  | cons x w ih =>
    intro z l s hw hl h
    obtain ⟨hz, hevent, hany, heol, hmatched, haction, hother, hw⟩ := hw
    cases l with
    | nil =>
      rw [List.nil_append, feed_other [] hz (hevent ▸ hany) (hevent ▸ heol) hother]
      exact feed_z9 s [] hl
    | cons c l =>
      rw [stripWord] at h
      split_ifs at h with hc
      · rw [List.cons_append, feed_nop _ (Or.inr (hevent.trans hc.symm)) hmatched haction]
        exact ih s hw (List.not_mem_of_not_mem_cons hl) h
      · rw [List.cons_append, feed_other _ hz (hevent ▸ hany) (hevent ▸ Ne.symm hc) hother]
        exact feed_z9 s (c :: l) hl

theorem stripWord_append (w w' l : List Byte) :
    stripWord (w ++ w') l = (stripWord w l).bind (stripWord w') := by
  induction w generalizing l with
  | nil => rfl
  | cons x w ih =>
    cases l with
    | nil => rfl
    | cons c l =>
      rw [List.cons_append, stripWord, stripWord]
      split_ifs
      · exact ih l
      · rfl

theorem stripWord_append_right {w : List Byte} : ∀ {l rest : List Byte} (l' : List Byte),
    stripWord w l = some rest → stripWord w (l ++ l') = some (rest ++ l') := by
  induction w with
  | nil =>
    intro l rest l' h
    cases h
    rfl
  | cons x w ih =>
    intro l rest l' h
    cases l with
    | nil => cases h
    | cons c l =>
      rw [stripWord] at h
      split_ifs at h with hc
      rw [List.cons_append, stripWord, if_pos hc]
      exact ih l' h

theorem not_mem_of_stripWord {w : List Byte} : ∀ {l rest : List Byte}, stripWord w l = some rest →
    ∀ x ∉ l, x ∉ rest := by
  induction w with
  | nil =>
    intro l rest h x hx
    cases h
    exact hx
  | cons y w ih =>
    intro l rest h x hx
    cases l with
    | nil => cases h
    | cons c l =>
      rw [stripWord] at h
      split_ifs at h
      exact ih h x (List.not_mem_of_not_mem_cons hx)

/-! ### The colon -/

/-- What follows the colon, which may have blanks in front of it. -/
def afterColon (l : List Byte) : Option (List Byte) :=
  match l.dropWhile isBlank with
  | [] => none
  | c :: v => if c = chr ':' then some v else none

theorem fold_eq_lws : ∀ c : Byte, fold c = lws ↔ isBlank c = true := by
  decide +kernel

theorem fold_eq_colon : ∀ c : Byte, fold c = chr ':' ↔ c = chr ':' := by
  decide +kernel

theorem afterColon_cons_blank {c : Byte} (l : List Byte) (hc : isBlank c = true) :
    afterColon (c :: l) = afterColon l := by
  rw [afterColon, afterColon, List.dropWhile_cons_of_pos hc]

theorem afterColon_cons {c : Byte} (l : List Byte) (hc : ¬ isBlank c = true) :
    afterColon (c :: l) = if c = chr ':' then some l else none := by
  rw [afterColon, List.dropWhile_cons_of_neg hc]

/-- Rows for a colon with blanks in front of it. -/
structure Colon (i : ℕ) : Prop where
  lt : i + 1 < hiFsm.length
  blank : (row i).event = lws ∧ (row i).matched = i ∧ (row i).action = .nop ∧ (row i).other = i + 1
  colon : (row (i + 1)).event = chr ':' ∧ (row (i + 1)).matched = i + 2 ∧
    (row (i + 1)).action = .nop ∧ (row (i + 1)).other = z9

theorem feed_colon {i : ℕ} (hi : Colon i) (s : HiState) (l : List Byte) (hl : eol ∉ l) :
    feed (s.at i) (l ++ [eol]) =
      (afterColon l).elim (s.at z2) fun v => feed (s.at (i + 2)) (v ++ [eol]) := by
  obtain ⟨hlt, ⟨hevent, hmatched, haction, hother⟩, hevent', hmatched', haction', hother'⟩ := hi
  have hany : (row i).event ≠ any := hevent ▸ (by decide)
  have hany' : (row (i + 1)).event ≠ any := hevent' ▸ (by decide)
  induction l with
  | nil =>
    rw [List.nil_append, feed_other [] (by omega) hany (hevent ▸ (by decide)) hother,
      feed_other [] hlt hany' (hevent' ▸ (by decide)) hother']
    exact feed_z9 s [] hl
  | cons c l ih =>
    have hl' := List.not_mem_of_not_mem_cons hl
    by_cases hblank : isBlank c = true
    · rw [afterColon_cons_blank l hblank, List.cons_append,
        feed_nop _ (Or.inr (hevent.trans ((fold_eq_lws c).2 hblank).symm)) hmatched haction]
      exact ih hl'
    · have hne : (row i).event ≠ fold c := hevent ▸ fun h => hblank ((fold_eq_lws c).1 h.symm)
      rw [afterColon_cons l hblank, List.cons_append, feed_other _ (by omega) hany hne hother]
      by_cases hcolon : c = chr ':'
      · rw [if_pos hcolon,
          feed_nop _ (Or.inr (hevent'.trans ((fold_eq_colon c).2 hcolon).symm)) hmatched' haction']
        rfl
      · have hne' : (row (i + 1)).event ≠ fold c :=
          hevent' ▸ fun h => hcolon ((fold_eq_colon c).1 h.symm)
        rw [if_neg hcolon, feed_other _ hlt hany' hne' hother']
        exact feed_z9 s (c :: l) hl

/-! ### The content length -/

/-- A byte of the digits of a content length. -/
def digit (s : HiState) (c : Byte) : HiState := (hiExec s .shi (fold c)).2

theorem digit_at (s : HiState) (c : Byte) (i : ℕ) : digit (s.at i) c = (digit s c).at i := by
  show (if s.flags.err = true then _ else if isdigit (fold c) = true ∧ s.len < 429496728 then _
      else _ : PafStatus × HiState).2 =
    HiState.at (if s.flags.err = true then _ else if isdigit (fold c) = true ∧ s.len < 429496728
      then _ else _ : PafStatus × HiState).2 i
  by_cases herr : s.flags.err = true
  · rw [if_pos herr, if_pos herr]
  · by_cases hdigit : isdigit (fold c) = true ∧ s.len < 429496728
    · rw [if_neg herr, if_neg herr, if_pos hdigit, if_pos hdigit]
      rfl
    · rw [if_neg herr, if_neg herr, if_neg hdigit, if_neg hdigit]
      rfl

/-- `ACT_LNB`. -/
def HiState.hasLen (s : HiState) : HiState := { s with flags := { s.flags with len := true } }

theorem feed_digits (s : HiState) (v : List Byte) (hv : eol ∉ v) :
    feed (s.at z5) (v ++ [eol]) = (v.foldl digit s).hasLen.at z2 := by
  induction v generalizing s with
  | nil => rw [List.nil_append, feed_match [] (Or.inr rfl) (show _ = z2 by decide)]; rfl
  | cons c v ih =>
    have hne := List.ne_of_not_mem_cons hv
    have hrow : (row z5).event ≠ fold c := fun h => fold_ne_eol c hne.symm h.symm
    rw [List.cons_append, feed_other _ (by decide) (by decide) hrow (show _ = z5 + 1 by decide),
      feed_match _ (Or.inl (by decide)) (show _ = z5 by decide)]
    show feed (digit (s.at z5) c) _ = _
    rw [digit_at, ih _ (List.not_mem_of_not_mem_cons hv)]
    rfl

/-- The field that a content-length line holds: whether there is a blank behind the colon, and what
follows the blanks. -/
def contentLength (l : List Byte) : Option (Bool × List Byte) :=
  ((stripWord ("CONTENT-LENGTH".toList.map chr) l).bind afterColon).map fun v =>
    (v.head?.any isBlank, v.dropWhile isBlank)

/-- What a content length does to the state. -/
def applyLength (s : HiState) (blank : Bool) (value : List Byte) : HiState :=
  (value.foldl digit (if blank then { s with len := 0 } else s)).hasLen

/-- The length is only set to 0 by a blank behind the colon. -/
theorem feed_length (s : HiState) (v : List Byte) (hv : eol ∉ v) :
    feed (s.at (z2 + 16)) (v ++ [eol]) =
      (applyLength s (v.head?.any isBlank) (v.dropWhile isBlank)).at z2 := by
  have hother : ∀ (s : HiState) {c : Byte} (l : List Byte), ¬ isBlank c = true →
      feed (s.at (z2 + 16)) (c :: l) = feed (s.at z5) (c :: l) := fun s c l hc =>
    feed_other l (by decide) (by decide) (fun h => hc ((fold_eq_lws _).1 h.symm)) (by decide)
  induction v generalizing s with
  | nil => rw [List.nil_append, hother s [] (by decide)]; exact feed_digits s [] hv
  | cons c v ih =>
    have hv' := List.not_mem_of_not_mem_cons hv
    by_cases hblank : isBlank c = true
    · have hrow : (row (z2 + 16)).event = fold c :=
        (show _ = lws by decide).trans ((fold_eq_lws c).2 hblank).symm
      rw [List.cons_append, feed_match _ (Or.inr hrow) (show _ = z2 + 16 by decide)]
      show feed (HiState.at { s with len := 0 } (z2 + 16)) (v ++ [eol]) = _
      rw [ih _ hv', List.dropWhile_cons_of_pos hblank]
      show (applyLength { s with len := 0 } _ _).at z2 = (applyLength s (isBlank c) _).at z2
      rw [hblank]
      unfold applyLength
      rw [ite_self, if_pos rfl]
    · rw [List.cons_append, hother s _ hblank, List.dropWhile_cons_of_neg hblank]
      show _ = (applyLength s (isBlank c) (c :: v)).at z2
      rw [Bool.eq_false_of_not_eq_true hblank]
      exact feed_digits s (c :: v) hv

/-! ### The transfer encoding -/

/-- `ACT_CHK`. -/
def HiState.chunked (s : HiState) : HiState := { s with flags := { s.flags with chk := true } }

/-- A line that declares a chunked body. -/
def isChunked (l : List Byte) : Bool :=
  ((stripWord ("TRANSFER-ENCODING".toList.map chr) l).bind afterColon).any fun v =>
    (stripWord ("CHUNKED".toList.map chr) (v.dropWhile isBlank)).isSome

/-- The only recognized encoding. -/
theorem feed_encoding (s : HiState) (v : List Byte) (hv : eol ∉ v) :
    feed (s.at z4) (v ++ [eol]) =
      (if (stripWord ("CHUNKED".toList.map chr) v).isSome then s.chunked else s).at z2 := by
  have hword : Word z4 ("CHUNKE".toList.map chr) := by decide
  have hsplit : "CHUNKED".toList.map chr = "CHUNKE".toList.map chr ++ [chr 'D'] := rfl
  rw [hsplit, stripWord_append]
  cases hstrip : stripWord ("CHUNKE".toList.map chr) v with
  | none =>
    rw [feed_word_none s hword hv hstrip]
    rfl
  | some rest =>
    have hrest := not_mem_of_stripWord hstrip eol hv
    rw [feed_word s hword (stripWord_append_right [eol] hstrip)]
    show feed (s.at (z4 + 6)) (rest ++ [eol]) =
      (if (stripWord [chr 'D'] rest).isSome = true then s.chunked else s).at z2
    have hrow : (row (z4 + 6)).event = chr 'D' := by decide
    cases rest with
    | nil =>
      rw [List.nil_append, feed_other [] (by decide) (by decide) (by decide)
        (show _ = z9 by decide)]
      exact feed_z9 s [] hrest
    | cons c rest =>
      by_cases hc : fold c = chr 'D'
      · rw [List.cons_append, feed_match _ (Or.inr (hrow.trans hc.symm)) (show _ = z9 by decide),
          stripWord, if_pos hc]
        exact feed_z9 s.chunked rest (List.not_mem_of_not_mem_cons hrest)
      · rw [List.cons_append, feed_other _ (by decide) (by decide) (hrow.trans_ne (Ne.symm hc))
          (show _ = z9 by decide), stripWord, if_neg hc]
        exact feed_z9 s (c :: rest) hrest

theorem feed_chunked (s : HiState) (v : List Byte) (hv : eol ∉ v) :
    feed (s.at (z3 + 19)) (v ++ [eol]) =
      (if (stripWord ("CHUNKED".toList.map chr) (v.dropWhile isBlank)).isSome then s.chunked
        else s).at z2 := by
  have hother : ∀ {c : Byte} (l : List Byte), ¬ isBlank c = true →
      feed (s.at (z3 + 19)) (c :: l) = feed (s.at z4) (c :: l) := fun l hc =>
    feed_other l (by decide) (by decide) (fun h => hc ((fold_eq_lws _).1 h.symm)) (by decide)
  induction v with
  | nil => rw [List.nil_append, hother [] (by decide)]; exact feed_encoding s [] hv
  | cons c v ih =>
    by_cases hblank : isBlank c = true
    · have hrow : (row (z3 + 19)).event = fold c :=
        (show _ = lws by decide).trans ((fold_eq_lws c).2 hblank).symm
      rw [List.cons_append, feed_nop _ (Or.inr hrow) (show _ = z3 + 19 by decide) (by decide),
        List.dropWhile_cons_of_pos hblank]
      exact ih (List.not_mem_of_not_mem_cons hv)
    · rw [List.cons_append, hother _ hblank, List.dropWhile_cons_of_neg hblank]
      exact feed_encoding s (c :: v) hv

/-! ### Fields -/

/-- What a header line does to the state. -/
def applyField (s : HiState) (l : List Byte) : HiState :=
  match contentLength l with
  | some (blank, value) => applyLength s blank value
  | none => if isChunked l then s.chunked else s

theorem not_mem_of_afterColon {l v : List Byte} (h : afterColon l = some v) {x : Byte}
    (hx : x ∉ l) : x ∉ v := by
  induction l with
  | nil => cases h
  | cons c l ih =>
    by_cases hblank : isBlank c = true
    · rw [afterColon_cons_blank l hblank] at h
      exact ih h (List.not_mem_of_not_mem_cons hx)
    · rw [afterColon_cons l hblank] at h
      split_ifs at h
      cases h
      exact List.not_mem_of_not_mem_cons hx

/-- A field with a name, a colon and a value. -/
theorem feed_named {i : ℕ} {w : List Byte} (hw : Word i w) (hcolon : Colon (i + w.length))
    (s : HiState) (l : List Byte) (hl : eol ∉ l) (f : List Byte → HiState)
    (hf : ∀ v, eol ∉ v → feed (s.at (i + w.length + 2)) (v ++ [eol]) = (f v).at z2) :
    feed (s.at i) (l ++ [eol]) = (((stripWord w l).bind afterColon).elim s f).at z2 := by
  cases hstrip : stripWord w l with
  | none => exact feed_word_none s hw hl hstrip
  | some rest =>
    have hrest := not_mem_of_stripWord hstrip eol hl
    rw [feed_word s hw (stripWord_append_right [eol] hstrip), feed_colon hcolon s rest hrest]
    show _ = ((afterColon rest).elim s f).at z2
    cases hv : afterColon rest with
    | none => rfl
    | some v => exact hf v (not_mem_of_afterColon hv hrest)

theorem isChunked_cons_c {c : Byte} (l : List Byte) (hc : fold c = chr 'C') :
    isChunked (c :: l) = false := by
  have hne : ¬ fold c = chr 'T' := hc ▸ (by decide)
  show ((if fold c = chr 'T' then _ else none : Option (List Byte)).bind afterColon).any _ = false
  rw [if_neg hne]
  rfl

theorem contentLength_cons {c : Byte} (l : List Byte) (hc : ¬ fold c = chr 'C') :
    contentLength (c :: l) = none := by
  show ((if fold c = chr 'C' then _ else none : Option (List Byte)).bind afterColon).map _ = none
  rw [if_neg hc]
  rfl

theorem applyField_of_none {s : HiState} {l : List Byte} (h : contentLength l = none) :
    applyField s l =
      ((stripWord ("TRANSFER-ENCODING".toList.map chr) l).bind afterColon).elim s fun v =>
        if (stripWord ("CHUNKED".toList.map chr) (v.dropWhile isBlank)).isSome then s.chunked
        else s := by
  rw [applyField, h]
  show (if isChunked l = true then s.chunked else s) = _
  unfold isChunked
  cases (stripWord ("TRANSFER-ENCODING".toList.map chr) l).bind afterColon <;> rfl

/-- **A header line.**  The table does to the state what the field of the line says. -/
theorem feed_field (s : HiState) (l : List Byte) (hl : eol ∉ l) :
    feed (s.at z2) (l ++ [eol]) = (applyField s l).at z2 := by
  have hlength : Word (z2 + 1) ("ONTENT-LENGTH".toList.map chr) := by decide
  have hcoding : Word z3 ("TRANSFER-ENCODING".toList.map chr) := by decide
  have hother : ∀ {c : Byte} (l' : List Byte), ¬ fold c = chr 'C' →
      feed (s.at z2) (c :: l') = feed (s.at z3) (c :: l') := fun l' hc =>
    feed_other l' (by decide) (by decide) (Ne.symm hc) (by decide)
  have hnamed := feed_named hcoding ⟨by decide, by decide, by decide⟩ s l hl _
    fun v hv => feed_chunked s v hv
  cases l with
  | nil => rw [List.nil_append, hother [] (by decide), applyField_of_none rfl]; exact hnamed
  | cons c l =>
    by_cases hc : fold c = chr 'C'
    · have hrow : (row z2).event = chr 'C' := by decide
      rw [List.cons_append, feed_nop _ (Or.inr (hrow.trans hc.symm)) (show _ = z2 + 1 by decide)
        (by decide), feed_named hlength ⟨by decide, by decide, by decide⟩ s l
        (List.not_mem_of_not_mem_cons hl) _ fun v hv => feed_length s v hv]
      have hword : stripWord ("CONTENT-LENGTH".toList.map chr) (c :: l) =
          stripWord ("ONTENT-LENGTH".toList.map chr) l := if_pos hc
      rw [applyField, contentLength, hword, isChunked_cons_c l hc]
      cases (stripWord ("ONTENT-LENGTH".toList.map chr) l).bind afterColon <;> rfl
    · rw [List.cons_append, hother _ hc, applyField_of_none (contentLength_cons l hc)]
      exact hnamed

end Snort.HiPaf
