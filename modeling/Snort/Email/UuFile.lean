import Snort.Email.Calls

/-!
# Uuencoded files

* `sextets`, `UuLine`: the data of a line and the characters that stand for it;
* `UuFile`: a `begin` line, lines of data, and the end;
* **`uuLine_eq`**: the inner loop of `sf_uudecode` on the characters of a line;
* `Inside`: a boundary inside a line, behind the last character that `sf_uudecode` waits for;
* **`uuLoop_lines`**: the loop on lines that end elsewhere.
-/

namespace Snort.Email

open Buffer

/-! ### Lines -/

/-- The six-bit values that stand for bytes, four for every three. -/
def sextets : List Byte → List (BitVec 8)
  | x :: y :: z :: data =>
    (x >>> 2) :: ((x <<< 4 ||| y >>> 4) &&& 0x3f) :: ((y <<< 2 ||| z >>> 6) &&& 0x3f) :: (z &&& 0x3f) ::
      sextets data
  | _ => []

/-- A line of data: its bytes, filled up to groups of three, and the characters for them.  `cr` tells
whether the line ends in `\r\n`. -/
structure UuLine where
  data : List Byte
  pad : List Byte
  lengthChar : Byte
  chars : List Byte
  cr : Bool
  data_ne : data ≠ []
  data_le : data.length ≤ 63
  pad_lt : pad.length < 3
  whole : (data ++ pad).length % 3 = 0
  length_eq : (uuDecodeChar lengthChar).toNat = data.length
  printable : ∀ c ∈ lengthChar :: chars, 0x20 ≤ c ∧ c ≤ 0x60
  chars_eq : chars.map uuDecodeChar = sextets (data ++ pad)

/-- What stands in front of the line feed. -/
def UuLine.front (l : UuLine) : List Byte :=
  l.lengthChar :: (l.chars ++ if l.cr then [chr '\r'] else [])

/-- The line. -/
def UuLine.text (l : UuLine) : List Byte := l.front ++ [chr '\n']

/-- The characters that `sf_uudecode` waits for, behind the first. -/
def UuLine.need (l : UuLine) : ℕ := l.data.length * 4 / 3

theorem length_sextets (data : List Byte) : (sextets data).length = data.length / 3 * 4 := by
  fun_induction sextets data with
  | case1 x y z data ih =>
    simp only [List.length_cons, ih]
    omega
  | case2 data h =>
    rcases data with _ | ⟨x, _ | ⟨y, _ | ⟨z, data⟩⟩⟩
    · rfl
    · simp
    · simp
    · exact (h x y z data rfl).elim

/-- There are four characters for every three bytes. -/
theorem UuLine.length_chars (l : UuLine) : l.need ≤ l.chars.length ∧
    l.data.length ≤ 3 * l.chars.length / 4 ∧ l.chars.length % 4 = 0 := by
  have h := congrArg List.length l.chars_eq
  have hw := l.whole
  rw [List.length_map, length_sextets, List.length_append] at h
  rw [List.length_append] at hw
  unfold UuLine.need
  omega

theorem ne_of_printable {c : Byte} (h : 0x20 ≤ c ∧ c ≤ 0x60) : c ≠ chr '\n' ∧ c ≠ chr 'e' := by
  constructor
  · rintro rfl
    exact absurd h.1 (by decide)
  · rintro rfl
    exact absurd h.2 (by decide)

theorem UuLine.front_ne (l : UuLine) : ∀ c ∈ l.front, c ≠ chr '\n' := by
  intro c hc
  rw [UuLine.front, ← List.cons_append, List.mem_append] at hc
  rcases hc with hc | hc
  · exact (ne_of_printable (l.printable c hc)).1
  · split at hc
    · rw [List.mem_singleton.1 hc]
      decide
    · cases hc

/-! ### The characters of a line -/

theorem sextet_first (x y : Byte) : (x >>> 2) <<< 2 ||| ((x <<< 4 ||| y >>> 4) &&& 0x3f) >>> 4 = x := by
  ext i hi
  interval_cases i <;> simp

theorem sextet_second (x y z : Byte) :
    ((x <<< 4 ||| y >>> 4) &&& 0x3f) <<< 4 ||| ((y <<< 2 ||| z >>> 6) &&& 0x3f) >>> 2 = y := by
  ext i hi
  interval_cases i <;> simp

theorem sextet_third (y z : Byte) : ((y <<< 2 ||| z >>> 6) &&& 0x3f) <<< 6 ||| z &&& 0x3f = z := by
  ext i hi
  interval_cases i <;> simp

/-- The first four of the characters read. -/
theorem readBuf_sextets {mem : ℕ → Byte} {x y z : Byte} {rest : List Byte} {n ptr : ℕ}
    (h : (readBuf mem ptr n).map uuDecodeChar = sextets (x :: y :: z :: rest)) :
    uuDecodeChar (mem ptr) = x >>> 2 ∧
      uuDecodeChar (mem (ptr + 1)) = (x <<< 4 ||| y >>> 4) &&& 0x3f ∧
      uuDecodeChar (mem (ptr + 2)) = (y <<< 2 ||| z >>> 6) &&& 0x3f ∧
      uuDecodeChar (mem (ptr + 3)) = z &&& 0x3f ∧
      (readBuf mem (ptr + 4) (n - 4)).map uuDecodeChar = sextets rest := by
  have hn : n = (sextets rest).length + 4 := by
    have := congrArg List.length h
    simpa [sextets] using this
  rw [hn, readBuf_succ, readBuf_succ, readBuf_succ, readBuf_succ, sextets] at h
  simp only [List.map_cons, List.cons.injEq] at h
  rw [hn, Nat.add_sub_cancel]
  exact h

/-- **The inner loop of `sf_uudecode`**, on the characters of a line. -/
theorem uuLine_eq (mem : ℕ → Byte) {data pad : List Byte} {n ptr : ℕ} (out : List Byte)
    (hpad : pad.length < 3) (hwhole : (data ++ pad).length % 3 = 0)
    (h : (readBuf mem ptr n).map uuDecodeChar = sextets (data ++ pad)) :
    uuLine mem (data.length * 4 / 3) ptr out = (ptr + data.length * 4 / 3, out ++ data) := by
  induction hl : data.length using Nat.strong_induction_on generalizing data n ptr out with
  | _ k ih =>
    rw [List.length_append] at hwhole
    rcases data with _ | ⟨x, _ | ⟨y, _ | ⟨z, data⟩⟩⟩
    · subst hl
      rw [List.append_nil]
      rfl
    · subst hl
      obtain ⟨y, z, rfl⟩ := List.length_eq_two.1 (show pad.length = 2 by simp at hwhole; omega)
      obtain ⟨h0, h1, -⟩ := readBuf_sextets h
      rw [show [x].length * 4 / 3 = 1 by simp, uuLine, h0, h1, sextet_first]
    · subst hl
      obtain ⟨z, rfl⟩ := List.length_eq_one_iff.1 (show pad.length = 1 by simp at hwhole; omega)
      obtain ⟨h0, h1, h2, -⟩ := readBuf_sextets h
      rw [show [x, y].length * 4 / 3 = 2 by simp, uuLine, h0, h1, h2, sextet_first, sextet_second]
    · obtain ⟨h0, h1, h2, h3, hrest⟩ := readBuf_sextets h
      rw [List.length_cons, List.length_cons, List.length_cons] at hl hwhole
      have h43 : k * 4 / 3 = data.length * 4 / 3 + 4 := by omega
      rw [h43, uuLine, h0, h1, h2, h3, sextet_first, sextet_second, sextet_third,
        ih data.length (by omega) _ (by rw [List.length_append]; omega) hrest rfl, Nat.add_assoc,
        Nat.add_comm 4, List.append_assoc]
      rfl

/-! ### Boundaries -/

/-- The text of lines. -/
def linesText (ls : List UuLine) : List Byte := (ls.map UuLine.text).flatten

/-- The data of lines. -/
def linesData (ls : List UuLine) : List Byte := (ls.map UuLine.data).flatten

/-- A boundary inside one of the lines, which start at the offset `k` of a stream: behind the last
character that `sf_uudecode` waits for, and in front of the end of what precedes the line feed. -/
def Inside (k : ℕ) : List UuLine → ℕ → Prop
  | [], _ => False
  | l :: ls, m => k + 1 + l.need ≤ m ∧ m < k + l.front.length ∨ Inside (k + l.text.length) ls m

instance decidableInside (k : ℕ) : (ls : List UuLine) → (m : ℕ) → Decidable (Inside k ls m)
  | [], _ => isFalse id
  | l :: ls, m =>
    have := decidableInside (k + l.text.length) ls m
    inferInstanceAs (Decidable (_ ∨ _))

theorem Inside.append {k : ℕ} {a b : List UuLine} {m : ℕ}
    (h : Inside (k + (linesText a).length) b m) : Inside k (a ++ b) m := by
  induction a generalizing k with
  | nil => exact h
  | cons l a ih =>
    refine .inr (ih ?_)
    have e : (linesText (l :: a)).length = l.text.length + (linesText a).length := by
      rw [linesText, List.map_cons, List.flatten_cons, List.length_append]
      rfl
    rw [e] at h
    rw [Nat.add_assoc]
    exact h

/-! ### The loop -/

section Loop

variable {mem : ℕ → Byte} {slen dlen : ℕ}

theorem uuLoop_end {rounds ptr : ℕ} {sol : Bool} (out : List Byte) (h : slen ≤ ptr) :
    uuLoop mem slen dlen rounds ptr sol out = (ptr, out, false) := by
  cases rounds with
  | zero => rfl
  | succ rounds => rw [uuLoop, if_neg (by omega)]

theorem uuLoop_lf {rounds ptr : ℕ} {sol : Bool} {out : List Byte} (hp : ptr < slen)
    (ho : out.length < dlen) (h : mem ptr = chr '\n') :
    uuLoop mem slen dlen (rounds + 1) ptr sol out = uuLoop mem slen dlen rounds (ptr + 1) true out := by
  rw [uuLoop, if_pos ⟨hp, ho⟩, if_pos h]

/-- Bytes that are skipped to the line feed or the end. -/
theorem uuLoop_skip {rounds ptr : ℕ} {out w : List Byte} (ho : out.length < dlen)
    (hw : readBuf mem ptr w.length = w) (hlf : ∀ c ∈ w, c ≠ chr '\n') (hp : ptr + w.length ≤ slen)
    (hr : w.length ≤ rounds) :
    uuLoop mem slen dlen rounds ptr false out =
      uuLoop mem slen dlen (rounds - w.length) (ptr + w.length) false out := by
  induction w generalizing ptr rounds with
  | nil => rfl
  | cons c w ih =>
    rw [List.length_cons] at hw hp hr
    rw [readBuf_succ] at hw
    injection hw with hc hw
    obtain ⟨r, rfl⟩ := Nat.exists_eq_add_of_le' (show 1 ≤ rounds by omega)
    have hne : mem ptr ≠ chr '\n' := hc ▸ hlf c List.mem_cons_self
    rw [uuLoop, if_pos ⟨by omega, ho⟩, if_neg hne, if_neg (by decide),
      ih hw (fun d hd => hlf d (List.mem_cons_of_mem _ hd)) (by omega) (by omega), List.length_cons]
    congr 1 <;> omega

/-- The first character of a line of data. -/
theorem uuLoop_line {rounds ptr : ℕ} {out : List Byte} (l : UuLine) (hp : ptr < slen)
    (hc : mem ptr = l.lengthChar) (hroom : out.length + l.data.length < dlen) :
    uuLoop mem slen dlen (rounds + 1) ptr true out =
      if slen - (ptr + 1) < l.need then (ptr, out, false)
      else uuLoop mem slen dlen rounds (uuLine mem l.need (ptr + 1) out).1 false
        (uuLine mem l.need (ptr + 1) out).2 := by
  obtain ⟨hlf, he⟩ := ne_of_printable (l.printable _ List.mem_cons_self)
  have hpos := List.length_pos_of_ne_nil l.data_ne
  rw [uuLoop, if_pos ⟨hp, by omega⟩, hc, if_neg hlf, if_pos rfl, l.length_eq]
  simp only
  rw [if_neg (by omega), if_neg (fun h => he h.2), Nat.min_eq_left (by omega)]
  rfl

/-- What a file ends with: a character of value zero, or an `e`. -/
def EndsFile (t : List Byte) : Prop :=
  ∃ (c : Byte) (t' : List Byte), t = c :: t' ∧ c ≠ chr '\n' ∧ (uuDecodeChar c = 0 ∨ c = chr 'e')

theorem uuLoop_tail {rounds ptr : ℕ} {out : List Byte} {c : Byte} (hp : ptr < slen)
    (hout : out.length < dlen) (hc : mem ptr = c) (hlf : c ≠ chr '\n')
    (h : uuDecodeChar c = 0 ∨ c = chr 'e') :
    uuLoop mem slen dlen (rounds + 1) ptr true out = (ptr, out, decide (c = chr 'e')) := by
  rw [uuLoop, if_pos ⟨hp, hout⟩, hc, if_neg hlf, if_pos rfl]
  rcases h with h | rfl
  · have hne : c ≠ chr 'e' := by
      rintro rfl
      exact absurd h (by decide)
    simp [h, hne]
  · simp [show (uuDecodeChar (chr 'e')).toNat = 5 by decide]

/-- The output buffer has room for the lines, or for what the bytes there are can be decoded to and one
line more. -/
def Fits (dlen n y : ℕ) (ls : List UuLine) : Prop :=
  n + (linesData ls).length < dlen ∨ n + 3 * y / 4 + 63 < dlen

/-- What the loop leaves of lines and the end of the file: it stops in front of the last line feed, or
at the start of a line, or at the `end`; of a text that is all there it leaves no line. -/
def Left (b : List UuLine) (t left rest : List Byte) (ended : Bool) : Prop :=
  (rest = [] → b = []) ∧
  if ended then b = [] ∧ left ≠ [] ∧ left ++ rest = t ∧ t.head? = some (chr 'e')
  else left ++ rest = linesText b ++ t ∨ left = [] ∧ rest = chr '\n' :: (linesText b ++ t)

/-- **The loop of `sf_uudecode` on lines**, when what there is of them ends at no boundary inside a
line. -/
theorem uuLoop_lines {t : List Byte} (ht : EndsFile t) {ls : List UuLine} {rounds ptr k : ℕ}
    {out y rest : List Byte} (hy : readBuf mem ptr (slen - ptr) = y) (hp : ptr ≤ slen)
    (hr : slen - ptr ≤ rounds) (htext : y ++ rest = linesText ls ++ t)
    (hfits : Fits dlen out.length y.length ls) (hcut : ¬Inside k ls (k + y.length)) :
    ∃ (a b : List UuLine) (left : List Byte) (ended : Bool), ls = a ++ b ∧ left <:+ y ∧
      uuLoop mem slen dlen rounds ptr true out =
        (slen - left.length, out ++ linesData a, ended) ∧ Left b t left rest ended := by
  have hlen : slen - ptr = y.length := by rw [← hy, length_readBuf]
  induction ls generalizing ptr rounds out y k with
  | nil =>
    rcases y with _ | ⟨c, y⟩
    · refine ⟨[], [], [], false, rfl, List.suffix_rfl, ?_, fun _ => rfl, .inl htext⟩
      rw [uuLoop_end out (by simp at hlen; omega)]
      simp [linesData]
      simp at hlen
      omega
    · obtain ⟨c', t', rfl, hlf, hval⟩ := ht
      obtain rfl := (List.cons.inj htext).1
      rw [List.length_cons] at hlen
      have hmem : mem ptr = c := by
        rw [hlen, readBuf_succ] at hy
        exact (List.cons.inj hy).1
      obtain ⟨r, rfl⟩ := Nat.exists_eq_add_of_le' (show 1 ≤ rounds by omega)
      have hout : out.length < dlen := by
        rcases hfits with h | h <;> omega
      refine ⟨[], [], c :: y, decide (c = chr 'e'), rfl, List.suffix_rfl, ?_, ?_⟩
      · rw [uuLoop_tail (by omega) hout hmem hlf hval, List.length_cons]
        simp only [linesData, List.map_nil, List.flatten_nil, List.append_nil]
        congr 1
        omega
      · refine ⟨fun _ => rfl, ?_⟩
        by_cases he : c = chr 'e'
        · rw [if_pos (by simpa using he)]
          exact ⟨rfl, List.cons_ne_nil _ _, htext, by rw [he]; rfl⟩
        · rw [if_neg (by simpa using he)]
          exact .inl htext
  | cons l ls ih =>
    have hl : linesText (l :: ls) ++ t = l.front ++ chr '\n' :: (linesText ls ++ t) := by
      simp only [linesText, List.map_cons, List.flatten_cons, UuLine.text, List.append_assoc,
        List.nil_append, List.cons_append]
    have hdata : (linesData (l :: ls)).length = l.data.length + (linesData ls).length := by
      rw [linesData, List.map_cons, List.flatten_cons, List.length_append]
      rfl
    rcases y with _ | ⟨c, y⟩
    · have hne : rest ≠ [] := by
        rintro rfl
        rw [hl] at htext
        exact absurd (congrArg List.length htext) (by simp [UuLine.front])
      refine ⟨[], l :: ls, [], false, rfl, List.suffix_rfl, ?_, fun h => absurd h hne, .inl htext⟩
      rw [List.length_nil] at hlen
      rw [uuLoop_end out (by omega)]
      simp only [linesData, List.map_nil, List.flatten_nil, List.append_nil, List.length_nil]
      congr 1
      omega
    rw [hl] at htext
    have hc : c = l.lengthChar := (List.cons.inj htext).1
    rw [List.length_cons] at hlen
    have hmem : mem ptr = l.lengthChar := by
      rw [hlen, readBuf_succ] at hy
      rw [← hc]
      exact (List.cons.inj hy).1
    obtain ⟨r, rfl⟩ := Nat.exists_eq_add_of_le' (show 1 ≤ rounds by omega)
    have hout : out.length + l.data.length < dlen := by
      have := l.data_le
      rcases hfits with h | h <;> omega
    rw [uuLoop_line l (by omega) hmem hout]
    by_cases hwait : slen - (ptr + 1) < l.need
    · -- the line waits for its characters
      have hne : rest ≠ [] := by
        rintro rfl
        have := congrArg List.length htext
        have hneed := l.length_chars.1
        simp only [List.length_append, List.length_cons, List.length_nil, UuLine.front] at this
        omega
      refine ⟨[], l :: ls, c :: y, false, rfl, List.suffix_rfl, ?_, fun h => absurd h hne,
        .inl (by rw [htext, hl])⟩
      rw [if_pos hwait, List.length_cons]
      simp only [linesData, List.map_nil, List.flatten_nil, List.append_nil]
      congr 1
      omega
    rw [if_neg hwait]
    have hfront : l.front.length ≤ (c :: y).length := by
      by_contra h
      rw [List.length_cons] at h hcut
      exact hcut (.inl ⟨by omega, by omega⟩)
    have hpre : l.front <+: c :: y ++ rest := by
      rw [htext]
      exact List.prefix_append _ _
    obtain ⟨y2, hy2⟩ := List.prefix_of_prefix_length_le hpre (List.prefix_append _ _) hfront
    rw [← hy2] at hy htext hcut hfits
    rw [List.append_assoc, List.append_cancel_left_eq] at htext
    obtain ⟨hread, hread2, hsize⟩ := readBuf_eq_append hy
    obtain ⟨hneed, hbytes, hmod⟩ := l.length_chars
    have hflen : l.front.length = l.chars.length + (if l.cr then [chr '\r'] else []).length + 1 := by
      rw [UuLine.front, List.length_cons, List.length_append]
    -- the characters behind the first
    have hread1 : readBuf mem (ptr + 1) (l.front.length - 1) =
        l.chars ++ if l.cr then [chr '\r'] else [] := by
      have h := drop_readBuf mem ptr (show 1 ≤ l.front.length by omega)
      rw [hread] at h
      exact h.symm
    obtain ⟨hchars, -, -⟩ := readBuf_eq_append hread1
    have hline : uuLine mem l.need (ptr + 1) out = (ptr + 1 + l.need, out ++ l.data) :=
      uuLine_eq mem out l.pad_lt l.whole (by rw [hchars]; exact l.chars_eq)
    have hskip : uuLoop mem slen dlen r (ptr + 1 + l.need) false (out ++ l.data) =
        uuLoop mem slen dlen (r - (l.front.length - 1 - l.need)) (ptr + l.front.length) false
          (out ++ l.data) := by
      have hw := drop_readBuf mem (ptr + 1) (show l.need ≤ l.front.length - 1 by omega)
      have hwlen := congrArg List.length hw
      rw [length_readBuf] at hwlen
      have hne : ∀ d ∈ (readBuf mem (ptr + 1) (l.front.length - 1)).drop l.need, d ≠ chr '\n' := by
        intro d hd
        rw [hread1] at hd
        exact l.front_ne d (List.mem_cons_of_mem _ (List.mem_of_mem_drop hd))
      have h := @uuLoop_skip mem slen dlen r (ptr + 1 + l.need) (out ++ l.data) _
        (by rw [List.length_append]; omega) (by rw [hwlen]; exact hw.symm) hne (by omega) (by omega)
      rw [h, hwlen]
      congr 1
      omega
    rw [hline]
    simp only
    rw [hskip]
    rcases y2 with _ | ⟨c2, y3⟩
    · -- in front of the line feed
      rw [List.length_nil] at hsize
      have hrest : rest = chr '\n' :: (linesText ls ++ t) := by simpa using htext
      refine ⟨[l], ls, [], false, rfl, List.nil_suffix, ?_, fun h => ?_, .inr ⟨rfl, hrest⟩⟩
      swap
      · rw [h] at hrest
        cases hrest
      rw [uuLoop_end _ (by omega)]
      simp only [linesData, List.map_cons, List.map_nil, List.flatten_cons, List.flatten_nil,
        List.append_nil, List.length_nil]
      congr 1
      omega
    · obtain ⟨rfl, htext3⟩ := List.cons.inj htext
      rw [List.length_cons] at hsize hread2
      rw [readBuf_succ] at hread2
      obtain ⟨hlf, hread3⟩ := List.cons.inj hread2
      obtain ⟨r', hr'⟩ := Nat.exists_eq_add_of_le' (show 1 ≤ r - (l.front.length - 1 - l.need) by omega)
      have hsize3 : slen - (ptr + l.front.length + 1) = y3.length := by omega
      rw [hr', uuLoop_lf (by omega) (by rw [List.length_append]; omega) hlf]
      have htl : l.text.length = l.front.length + 1 := by
        rw [UuLine.text, List.length_append]
        rfl
      have hfits' : Fits dlen (out ++ l.data).length y3.length ls := by
        rw [Fits, List.length_append]
        rw [List.length_append, List.length_cons] at hfits
        rcases hfits with h | h
        · exact .inl (by omega)
        · exact .inr (by omega)
      have hcut' : ¬Inside (k + l.text.length) ls (k + l.text.length + y3.length) := by
        intro h
        apply hcut
        refine .inr ?_
        rw [List.length_append, List.length_cons]
        have e : k + (l.front.length + (y3.length + 1)) = k + l.text.length + y3.length := by omega
        rw [e]
        exact h
      obtain ⟨a, b, left, ended, rfl, hleft, hloop, hend⟩ :=
        @ih r' (ptr + l.front.length + 1) (k + l.text.length) (out ++ l.data) y3
          (by rw [hsize3]; exact hread3) (by omega) (by omega) htext3 hfits' hcut' hsize3
      refine ⟨l :: a, b, left, ended, rfl, ?_, ?_, hend⟩
      · rw [← hy2]
        exact hleft.trans ⟨l.front ++ [chr '\n'], by simp⟩
      · rw [hloop, List.append_assoc]
        rfl

/-- The loop, started at a line or at the line feed in front of it. -/
theorem uuResult_lines {t : List Byte} (ht : EndsFile t) {ls : List UuLine} {ptr k : ℕ}
    {pre y rest : List Byte} (hpre : pre = [] ∨ pre = [chr '\n'])
    (hy : readBuf mem ptr (slen - ptr) = pre ++ y) (hp : ptr ≤ slen)
    (htext : y ++ rest = linesText ls ++ t) (hfits : Fits dlen 0 y.length ls)
    (hcut : ¬Inside k ls (k + y.length)) :
    ∃ (a b : List UuLine) (left : List Byte) (ended : Bool), ls = a ++ b ∧ left <:+ y ∧
      uuResult mem slen dlen ptr false =
        ⟨if ended then slen else slen - left.length, linesData a, true, ended⟩ ∧
      Left b t left rest ended := by
  obtain ⟨h1, h2, h3⟩ := readBuf_eq_append hy
  have hloop : ∃ rounds : ℕ, slen - (ptr + pre.length) ≤ rounds ∧
      uuLoop mem slen dlen slen ptr true [] = uuLoop mem slen dlen rounds (ptr + pre.length) true [] := by
    rcases hpre with rfl | rfl
    · exact ⟨slen, by omega, rfl⟩
    · rw [List.length_singleton] at h1 h3
      have hlf : mem ptr = chr '\n' := (List.cons.inj h1).1
      have hout : ([] : List Byte).length < dlen := by
        rw [List.length_nil]
        rcases hfits with h | h <;> omega
      obtain ⟨r, hr⟩ := Nat.exists_eq_add_of_le' (show 1 ≤ slen by omega)
      refine ⟨r, by simp only [List.length_singleton]; omega, ?_⟩
      conv_lhs => rw [show uuLoop mem slen dlen slen ptr true [] =
        uuLoop mem slen dlen (r + 1) ptr true [] by rw [← hr]]
      exact uuLoop_lf (by omega) hout hlf
  obtain ⟨rounds, hr, hloop⟩ := hloop
  have hsize : slen - (ptr + pre.length) = y.length := by omega
  obtain ⟨a, b, left, ended, rfl, hleft, hres, hend⟩ :=
    @uuLoop_lines mem slen dlen t ht ls rounds (ptr + pre.length) k [] y rest (by rw [hsize]; exact h2)
      (by omega) hr htext hfits hcut
  refine ⟨a, b, left, ended, rfl, hleft, ?_, hend⟩
  unfold uuResult
  simp only [hloop, hres, Bool.false_or, List.nil_append]

end Loop

/-! ### Files -/

/-- A file: what follows `begin` in the first line, the lines of data, perhaps a line of length zero,
and `end`. -/
structure UuFile where
  header : List Byte
  lines : List UuLine
  zero : List Byte
  last : List Byte
  header_ne : ∀ c ∈ header, c ≠ chr '\n' ∧ c ≠ 0
  zero_mem : zero ∈ [[], bytes "`\n", bytes " \n", bytes "`\r\n", bytes " \r\n"]
  last_mem : last ∈ [[], bytes "\n", bytes "\r\n"]

/-- The first line, up to its line feed. -/
def UuFile.beginFront (f : UuFile) : List Byte := bytes "begin" ++ f.header

/-- What follows the lines of data. -/
def UuFile.tail (f : UuFile) : List Byte := f.zero ++ (bytes "end" ++ f.last)

/-- The file as it is sent. -/
def UuFile.text (f : UuFile) : List Byte := f.beginFront ++ chr '\n' :: (linesText f.lines ++ f.tail)

/-- The file that it encodes. -/
def UuFile.data (f : UuFile) : List Byte := linesData f.lines

theorem UuFile.endsFile_tail (f : UuFile) : EndsFile f.tail := by
  have h := f.zero_mem
  simp only [List.mem_cons, List.not_mem_nil, or_false] at h
  unfold UuFile.tail
  rcases h with h | h | h | h | h <;> rw [h]
  · exact ⟨chr 'e', _, rfl, by decide, .inr rfl⟩
  · exact ⟨chr '`', _, rfl, by decide, .inl (by decide)⟩
  · exact ⟨chr ' ', _, rfl, by decide, .inl (by decide)⟩
  · exact ⟨chr '`', _, rfl, by decide, .inl (by decide)⟩
  · exact ⟨chr ' ', _, rfl, by decide, .inl (by decide)⟩

theorem UuFile.length_tail (f : UuFile) (he : f.tail.head? = some (chr 'e')) : f.tail.length ≤ 5 := by
  have h := f.zero_mem
  have hl := f.last_mem
  simp only [List.mem_cons, List.not_mem_nil, or_false] at h hl
  unfold UuFile.tail at he ⊢
  rcases h with h | h | h | h | h <;> rw [h] at he ⊢
  · rcases hl with hl | hl | hl <;> rw [hl] <;> decide
  · exact absurd (Option.some.inj he) (by decide)
  · exact absurd (Option.some.inj he) (by decide)
  · exact absurd (Option.some.inj he) (by decide)
  · exact absurd (Option.some.inj he) (by decide)

/-- A boundary parts the file badly: it is inside the first line, or inside a line of data behind the
characters that `sf_uudecode` waits for. -/
def UuFile.Parted (f : UuFile) (m : ℕ) : Prop :=
  m < f.beginFront.length ∨ Inside (f.beginFront.length + 1) f.lines m

instance (f : UuFile) (m : ℕ) : Decidable (f.Parted m) := inferInstanceAs (Decidable (_ ∨ _))

end Snort.Email
