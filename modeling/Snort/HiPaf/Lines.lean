import Snort.HiPaf.Scan

/-!
# The lines of a header block

In front of the body `hi_paf` runs its table over the unfolded lines of the header block.

* `Header`: the rows of the table that are in use there; their actions select no point.
* `feed`: the table over a list of bytes; `run_line`: a line of the payload.
* **`run_lines`**: header lines, one after the other; `run_blank`: the empty line behind them.
-/

namespace Snort.HiPaf

open Scanner

/-- `'\r'`. -/
def cr : Byte := chr '\r'

/-! ### The rows in use -/

/-- The rows for the start line and for header lines. -/
def Header (i : ℕ) : Prop := i < hiFsm.length ∧ ¬ (z6 ≤ i ∧ i < z8)

instance (i : ℕ) : Decidable (Header i) := inferInstanceAs (Decidable (_ ∧ _))

/-- The actions of these rows. -/
def Action.inHeader (a : Action) : Bool := a ≠ .shx ∧ a ≠ .lnc ∧ a ≠ .ck0

theorem header_row : ∀ i < hiFsm.length, Header i →
    Header (row i).matched ∧ Header (row i).other ∧ (row i).action.inHeader = true := by
  decide +kernel

theorem header_findRow {c : Byte} {i : ℕ} (fuel : ℕ) (hi : Header i) :
    Header (findRow c fuel i).matched ∧ (findRow c fuel i).action.inHeader = true := by
  induction fuel generalizing i with
  | zero => exact ⟨(header_row i hi.1 hi).1, (header_row i hi.1 hi).2.2⟩
  | succ fuel ih =>
    rw [findRow]
    split_ifs
    · exact ⟨(header_row i hi.1 hi).1, (header_row i hi.1 hi).2.2⟩
    · exact ih (header_row i hi.1 hi).2.1

/-- What an action in a header block leaves as it is. -/
structure Kept (s t : HiState) : Prop where
  msg : t.msg = s.msg
  nof : t.flags.nof = s.flags.nof
  eol : t.flags.eol = s.flags.eol

theorem Kept.refl (s : HiState) : Kept s s := ⟨rfl, rfl, rfl⟩

theorem Kept.trans {s t u : HiState} (h : Kept s t) (h' : Kept t u) : Kept s u :=
  ⟨h'.msg.trans h.msg, h'.nof.trans h.nof, h'.eol.trans h.eol⟩

theorem hiExec_header {s : HiState} {a : Action} {c : Byte} (ha : a.inHeader = true) :
    (hiExec s a c).1 = .search ∧ (hiExec s a c).2.fsm = s.fsm ∧ Kept s (hiExec s a c).2 ∧
      ∀ m, hiExec { s with msg := m } a c = (.search, { (hiExec s a c).2 with msg := m }) := by
  cases a with
  | shx => cases ha
  | lnc => cases ha
  | ck0 => cases ha
  | shi =>
    unfold hiExec
    dsimp only
    split_ifs
    · exact ⟨rfl, rfl, ⟨rfl, rfl, rfl⟩, fun m => rfl⟩
    · exact ⟨rfl, rfl, ⟨rfl, rfl, rfl⟩, fun m => rfl⟩
    · exact ⟨rfl, rfl, ⟨rfl, rfl, rfl⟩, fun m => rfl⟩
  | _ => exact ⟨rfl, rfl, ⟨rfl, rfl, rfl⟩, fun m => rfl⟩

/-- The table on one byte of a header block. -/
theorem hiScanFsm_header {s : HiState} (c : Byte) (hs : Header s.fsm) :
    (hiScanFsm s c).1 = .search ∧ Header (hiScanFsm s c).2.fsm ∧ Kept s (hiScanFsm s c).2 ∧
      ∀ m, hiScanFsm { s with msg := m } c = (.search, { (hiScanFsm s c).2 with msg := m }) := by
  obtain ⟨hrow, haction⟩ := header_findRow (c := fold c) 4 hs
  obtain ⟨hpaf, hfsm, hkept, hmsg⟩ :=
    hiExec_header (s := { s with fsm := (findRow (fold c) 4 s.fsm).matched }) (c := fold c) haction
  refine ⟨hpaf, ?_, ⟨hkept.msg, hkept.nof, hkept.eol⟩, hmsg⟩
  show Header (hiExec _ _ _).2.fsm
  rw [hfsm]
  exact hrow

/-! ### Feeding the table -/

/-- The table over a list of bytes. -/
def feed (s : HiState) (l : List Byte) : HiState := l.foldl (fun s c => (hiScanFsm s c).2) s

@[simp] theorem feed_nil (s : HiState) : feed s [] = s := rfl

@[simp] theorem feed_cons (s : HiState) (c : Byte) (l : List Byte) :
    feed s (c :: l) = feed (hiScanFsm s c).2 l := rfl

theorem feed_append (s : HiState) (l l' : List Byte) : feed s (l ++ l') = feed (feed s l) l' :=
  List.foldl_append ..

theorem feed_header {s : HiState} (l : List Byte) (hs : Header s.fsm) :
    Header (feed s l).fsm ∧ Kept s (feed s l) ∧
      ∀ m, feed { s with msg := m } l = { feed s l with msg := m } := by
  induction l generalizing s with
  | nil => exact ⟨hs, Kept.refl s, fun m => rfl⟩
  | cons c l ih =>
    obtain ⟨-, hfsm, hkept, hmsg⟩ := hiScanFsm_header c hs
    obtain ⟨hfsm', hkept', hmsg'⟩ := ih hfsm
    refine ⟨hfsm', hkept.trans hkept', fun m => ?_⟩
    rw [feed_cons, feed_cons, hmsg m]
    exact hmsg' m

/-! ### Lines of the payload -/

/-- A line without its `\r`. -/
def strip (l : List Byte) : List Byte := l.filter fun c => decide (c ≠ cr)

theorem strip_cons_cr (l : List Byte) : strip (cr :: l) = strip l :=
  List.filter_cons_of_neg (by simp)

theorem strip_cons {c : Byte} (l : List Byte) (hc : c ≠ cr) : strip (c :: l) = c :: strip l :=
  List.filter_cons_of_pos (by simpa using hc)

/-- A blank or a tab. -/
def isBlank (c : Byte) : Bool := c = chr ' ' ∨ c = chr '\t'

/-- A line that starts with a blank continues the one before. -/
def piece (l : List Byte) : List Byte := if l.head?.any isBlank then l else eol :: l

theorem piece_cons (c : Byte) (l : List Byte) : piece (c :: l) = piece [c] ++ l := by
  show (if isBlank c = true then _ else _) = (if isBlank c = true then _ else _) ++ l
  split_ifs <;> rfl

theorem scanByte_cr (s : HiState) : scanByte s cr = .inl s := rfl

theorem scanByte_of_switch {s t : HiState} {c : Byte} (hcr : c ≠ cr)
    (h : scanSwitch s c = (.search, t)) : scanByte s c = .inl t := by
  have hscan : hiScanMsg s c 0 = (.search, t, 0) := by
    rw [hiScanMsg, if_neg (show ¬ c = chr '\r' from hcr), h]
    rfl
  unfold scanByte
  rw [hscan]
  rfl

theorem scanByte_of_switch_stop {s t : HiState} {c : Byte} {paf : PafStatus} (hcr : c ≠ cr)
    (h : scanSwitch s c = (paf, t)) (hpaf : paf ≠ .search) :
    scanByte s c = .inr (paf, t, t.len) := by
  have hscan : hiScanMsg s c 0 = (paf, t, t.len) := by
    rw [hiScanMsg, if_neg (show ¬ c = chr '\r' from hcr), h]
    simp only [ne_eq, hpaf, not_false_eq_true, if_true]
  unfold scanByte
  rw [hscan]
  exact if_neg hpaf

/-- A byte within a line. -/
theorem scanByte_text {s : HiState} {c : Byte} (hmsg : s.msg = 0) (hs : Header s.fsm)
    (hc : c ≠ eol) (hcr : c ≠ cr) : scanByte s c = .inl (hiScanFsm s c).2 := by
  refine scanByte_of_switch hcr ?_
  rw [scanSwitch, hmsg, ← (hiScanFsm_header c hs).1]
  exact if_neg hc

theorem run_text {s : HiState} (l : List Byte) (hmsg : s.msg = 0) (hs : Header s.fsm)
    (hl : eol ∉ l) : run scanByte s l = .more (feed s (strip l)) := by
  induction l generalizing s with
  | nil => rfl
  | cons c l ih =>
    have hne := List.ne_of_not_mem_cons hl
    have hl := List.not_mem_of_not_mem_cons hl
    by_cases hcr : c = cr
    · rw [hcr, run_cons_inl _ (scanByte_cr s), ih hmsg hs hl, strip_cons_cr]
      rfl
    · obtain ⟨-, hfsm, hkept, -⟩ := hiScanFsm_header c hs
      rw [run_cons_inl _ (scanByte_text hmsg hs hne.symm hcr), ih (hkept.msg.trans hmsg) hfsm hl,
        strip_cons _ hcr]
      rfl

/-- A line feed that ends a header line. -/
theorem scanByte_lineFeed {s : HiState} (hmsg : s.msg = 0) (heol : s.flags.eol = true)
    (hnof : s.flags.nof = false) : scanByte s eol = .inl { s with msg := 1 } := by
  refine scanByte_of_switch (by decide) ?_
  rw [scanSwitch, hmsg]
  simp [scanLineFeed, heol, hnof]

theorem fold_blank {c : Byte} (h : isBlank c = true) : fold c = fold lws := by
  simp only [isBlank, decide_eq_true_eq] at h
  rcases h with rfl | rfl <;> rfl

/-- The first byte of a line. -/
theorem scanByte_behindLine {s : HiState} {c : Byte} (hmsg : s.msg = 1) (hs : Header s.fsm)
    (hc : c ≠ eol) (hcr : c ≠ cr) : scanByte s c = .inl { feed s (piece [c]) with msg := 0 } := by
  have hbehind : scanBehindLine s c = (.search, { feed s (piece [c]) with msg := 0 }) := by
    unfold scanBehindLine
    by_cases hblank : isBlank c = true
    · have hpiece : piece [c] = [c] := if_pos hblank
      have hscan : hiScanFsm s c = hiScanFsm s lws := by
        rw [hiScanFsm, hiScanFsm, fold_blank hblank]
      rw [if_neg hc, if_pos (of_decide_eq_true hblank), hpiece, feed_cons, feed_nil, hscan,
        ← (hiScanFsm_header lws hs).1]
    · have hpiece : piece [c] = [eol, c] := if_neg hblank
      obtain ⟨hpaf, hfsm, -⟩ := hiScanFsm_header eol hs
      rw [if_neg hc, if_neg fun h => hblank (decide_eq_true h), hpiece, feed_cons, feed_cons,
        feed_nil]
      simp only [hpaf, if_true, (hiScanFsm_header c hfsm).1]
  refine scanByte_of_switch hcr ?_
  rw [scanSwitch, hmsg]
  exact hbehind

/-- A line that is not blank, with the line feed that ends it. -/
theorem run_line {s : HiState} (l : List Byte) (hmsg : s.msg = 1) (hs : Header s.fsm)
    (heol : s.flags.eol = true) (hnof : s.flags.nof = false) (hl : eol ∉ l) (htext : strip l ≠ []) :
    run scanByte s (l ++ [eol]) = .more (feed s (piece (strip l))) := by
  induction l with
  | nil => exact absurd rfl htext
  | cons c l ih =>
    have hne := List.ne_of_not_mem_cons hl
    have hl := List.not_mem_of_not_mem_cons hl
    by_cases hcr : c = cr
    · rw [hcr, strip_cons_cr] at htext ⊢
      rw [List.cons_append, run_cons_inl _ (scanByte_cr s), ih hl htext]
      rfl
    · obtain ⟨hfsm, hkept, -⟩ := feed_header (piece [c]) hs
      have hpiece : piece (strip (c :: l)) = piece [c] ++ strip l := by
        rw [strip_cons _ hcr, piece_cons]
      have htail := run_text (s := { feed s (piece [c]) with msg := 0 }) l rfl hfsm hl
      obtain ⟨-, hkept', hmsg'⟩ := feed_header (strip l) hfsm
      rw [hmsg' 0] at htail
      have hfeed := scanByte_lineFeed (s := { feed (feed s (piece [c])) (strip l) with msg := 0 }) rfl
        ((hkept'.eol.trans hkept.eol).trans heol) ((hkept'.nof.trans hkept.nof).trans hnof)
      rw [List.cons_append, run_cons_inl _ (scanByte_behindLine hmsg hs hne.symm hcr),
        run_append_more _ htail, run_cons_inl _ hfeed, run_nil, hpiece, feed_append]
      have hone : (feed (feed s (piece [c])) (strip l)).msg = 1 :=
        (hkept'.msg.trans hkept.msg).trans hmsg
      rw [← hone]
      rfl

/-- Lines as they are on the wire. -/
def joinLines (lines : List (List Byte)) : List Byte := lines.flatMap (· ++ [eol])

/-- Header lines, one after the other. -/
theorem run_lines {s : HiState} (lines : List (List Byte)) (hmsg : s.msg = 1) (hs : Header s.fsm)
    (heol : s.flags.eol = true) (hnof : s.flags.nof = false)
    (hlines : ∀ l ∈ lines, eol ∉ l ∧ strip l ≠ []) :
    run scanByte s (joinLines lines) =
      .more (feed s (lines.flatMap fun l => piece (strip l))) := by
  induction lines generalizing s with
  | nil => rfl
  | cons l lines ih =>
    obtain ⟨hl, htext⟩ := hlines l List.mem_cons_self
    obtain ⟨hfsm, hkept, -⟩ := feed_header (piece (strip l)) hs
    have hline := run_line l hmsg hs heol hnof hl htext
    rw [joinLines, List.flatMap_cons, run_append_more _ hline, List.flatMap_cons, feed_append]
    show (run scanByte _ (joinLines lines)).shift _ = _
    rw [ih (hkept.msg.trans hmsg) hfsm (hkept.eol.trans heol) (hkept.nof.trans hnof)
      fun l' hl' => hlines l' (List.mem_cons_of_mem _ hl')]
    rfl

/-- A state that has seen a line feed. -/
def HiState.sawEol (s : HiState) : HiState := { s with flags := { s.flags with eol := true } }

/-- The start line up to its end, where `hi_paf` goes on with header lines. -/
theorem run_start {s : HiState} (l : List Byte) (hmsg : s.msg = 0) (hs : Header s.fsm)
    (heol : s.flags.eol = false) (hl : eol ∉ l)
    (hv09 : (hiScanFsm (feed s (strip l)).sawEol eol).2.flags.v09 = false) :
    run scanByte s (l ++ [eol]) =
      .more { (hiScanFsm (feed s (strip l)).sawEol eol).2 with msg := 1 } := by
  obtain ⟨hfsm, hkept, -⟩ := feed_header (strip l) hs
  have hpaf := (hiScanFsm_header (s := (feed s (strip l)).sawEol) eol hfsm).1
  have hline : scanLineFeed (feed s (strip l)) =
      (.search, { (hiScanFsm (feed s (strip l)).sawEol eol).2 with msg := 1 }) := by
    rw [scanLineFeed, if_pos (hkept.eol.trans heol)]
    show (if (hiScanFsm (feed s (strip l)).sawEol eol).2.flags.v09 = true then _
      else ((hiScanFsm (feed s (strip l)).sawEol eol).1, _)) = _
    rw [hv09, hpaf]
    rfl
  have hbyte : scanByte (feed s (strip l)) eol =
      .inl { (hiScanFsm (feed s (strip l)).sawEol eol).2 with msg := 1 } := by
    refine scanByte_of_switch (by decide) ?_
    rw [scanSwitch, hkept.msg.trans hmsg, ← hline]
    rfl
  rw [run_append_more _ (run_text l hmsg hs hl), run_cons_inl _ hbyte]
  rfl

/-- The empty line that ends a header block. -/
theorem run_blank {s : HiState} (l : List Byte) (hl : ∀ c ∈ l, c = cr) :
    run scanByte s (l ++ [eol]) =
      ((scanByte s eol).elim (Outcome.more ·) fun r => .stop r 1).shift l.length := by
  rw [run_stay _ fun c hc => hl c hc ▸ scanByte_cr s]
  cases h : scanByte s eol with
  | inl t => rw [run_cons_inl _ h]; rfl
  | inr r => rw [run_cons_inr _ h]; rfl

end Snort.HiPaf
