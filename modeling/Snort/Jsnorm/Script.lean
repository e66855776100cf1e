import Mathlib.Data.Bool.AllAny
import Snort.Jsnorm.CharCode

/-!
# The script is read inside the arrays

* `find_javascriptNorm`: the table looks for the words;
* `jsnormAct_unescape`, `jsnormAct_sfcc`: the calls;
* `jsnormLoop_fits`: the loop of `JSNormalizeDecode`;
* **`jsNormalizeDecode_safe_iff`**: when all accesses are inside.
-/

namespace Snort.Jsnorm

open Buffer (drop_eq_cons)
open FallThrough

/-! ### Words in the table -/

/-- What has been met of a word in a state. -/
def place (i : ℕ) : List Byte :=
  if i < Z1 then (word "UNESCAPE(").take (i - Z0)
  else if i < Z2 then charCodeWord.take (i - Z1)
  else if i < Z3 then (word "DECODEURICOMPONENT(").take (i - Z2)
  else scriptWord.take (i - Z3)

/-- A state between two characters. -/
def atRest (i : ℕ) : Bool := i = Z0 || i < Z3 + 9 && i ≠ Z1 && i ≠ Z2 && i ≠ Z3

/-- A row does what a word asks for, as far as it has been met. -/
def meets (w : List Byte) (m : JSNorm ActionJSNorm) : Bool :=
  match m.action with
  | .nop | .save => w ∉ words && place m.next = w && atRest m.next
  | .unescape => w ∈ unescapeWords && m.next = Z0
  | .sfcc => w = charCodeWord && m.next = Z0
  | .quit => w = scriptWord
  | .space => false

/-- The characters of the words. -/
def letters : List Byte := word "UNESCAP(TRIG.FOMHD</>"

/-- The characters that go on with what has been met of a word. -/
def followers (w : List Byte) : List Byte :=
  words.filterMap fun v => if w.isPrefixOf v then v[w.length]? else none

theorem isPrefixOf_concat (w v : List Byte) (u : Byte) :
    (w ++ [u]).isPrefixOf v = true ↔ w.isPrefixOf v = true ∧ v[w.length]? = some u := by
  rw [List.isPrefixOf_iff_prefix, List.isPrefixOf_iff_prefix]
  constructor
  · rintro ⟨t, rfl⟩
    simp
  · rintro ⟨⟨t, rfl⟩, ht⟩
    cases t with
    | nil => simp at ht
    | cons c t =>
      have hc : c = u := by simpa using ht
      exact ⟨t, by simp [hc]⟩

theorem any_isPrefixOf_concat (w : List Byte) (u : Byte) :
    (words.any fun v => (w ++ [u]).isPrefixOf v) = (followers w).contains u := by
  rw [Bool.eq_iff_iff, List.any_eq_true, List.contains_iff_mem, followers, List.mem_filterMap]
  refine exists_congr fun v => and_congr_right fun _ => ?_
  rw [isPrefixOf_concat]
  by_cases hw : w.isPrefixOf v = true <;> simp [hw]

theorem advance_eq (w : List Byte) (b : Byte) :
    advance w b = if (followers w).contains (upper b) then w ++ [upper b]
      else if w = word "</SCRIPT" then w
      else if (followers []).contains (upper b) then [upper b] else [] := by
  rw [advance, any_isPrefixOf_concat, ← any_isPrefixOf_concat []]
  rfl

/-- What the table does with the characters of the words, and with others. -/
theorem letters_table :
    (∀ v ∈ words, ∀ u ∈ v, u ∈ letters) ∧
    (∀ m ∈ javascriptNorm, m.event ≠ 0 → m.event < 128 ∧ BitVec.ofNat 8 m.event ∈ letters) ∧
    (∀ u ∈ letters, upper u = u) ∧
    (∀ u ∈ letters, ∀ i < Z3 + 9, atRest i = true →
      (find javascriptNorm (isChar u.toInt) i).any (meets (advance (place i) u)) = true) ∧
    ∀ i < Z3 + 9, atRest i = true → (find javascriptNorm (fun _ => false) i).any
      (meets (if place i = word "</SCRIPT" then place i else [])) = true := by
  refine ⟨?_, ?_, List.all_iff_forall_prop.1 ?_, List.all_iff_forall_prop.1 ?_, ?_⟩
  · have hall : words.all (fun v => v.all fun u => u ∈ letters) = true := by decide +kernel
    simpa only [List.all_eq_true, decide_eq_true_eq] using hall
  · decide +kernel
  · decide +kernel
  · -- the followers of a state are evaluated once for all characters
    simp only [advance_eq]
    decide +kernel
  · decide +kernel

theorem letters_words : ∀ v ∈ words, ∀ u ∈ v, u ∈ letters := letters_table.1

theorem letters_events : ∀ m ∈ javascriptNorm, m.event ≠ 0 →
    m.event < 128 ∧ BitVec.ofNat 8 m.event ∈ letters :=
  letters_table.2.1

theorem upper_letters : ∀ u ∈ letters, upper u = u := letters_table.2.2.1

/-- The rows for the characters of the words. -/
theorem find_letter : ∀ u ∈ letters, ∀ i < Z3 + 9, atRest i = true →
    (find javascriptNorm (isChar u.toInt) i).any (meets (advance (place i) u)) = true :=
  letters_table.2.2.2.1

/-- The rows for other characters. -/
theorem find_noLetter : ∀ i < Z3 + 9, atRest i = true →
    (find javascriptNorm (fun _ => false) i).any
      (meets (if place i = word "</SCRIPT" then place i else [])) = true :=
  letters_table.2.2.2.2

theorem toInt_upper (b : Byte) : (upper b).toInt = toupper b.toInt := by
  have hle := @BitVec.toInt_le 8 b
  have hge := @BitVec.le_toInt 8 b
  have hrange : -128 ≤ toupper b.toInt ∧ toupper b.toInt < 128 := by
    unfold toupper
    split_ifs <;> omega
  unfold upper
  rw [BitVec.toInt_ofInt]
  exact Int.bmod_eq_of_le (by omega) (by omega)

theorem advance_upper {b u : Byte} (h : upper b = upper u) (w : List Byte) :
    advance w b = advance w u := by
  unfold advance
  rw [h]

theorem advance_noLetter {b : Byte} (h : upper b ∉ letters) (w : List Byte) :
    advance w b = if w = word "</SCRIPT" then w else [] := by
  have hany : ∀ p : List Byte, (words.any fun v => (p ++ [upper b]).isPrefixOf v) = false := by
    intro p
    rw [List.any_eq_false]
    intro v hv hprefix
    have hsub := (List.isPrefixOf_iff_prefix.1 hprefix).subset
    exact h (letters_words v hv _ (hsub (List.mem_append_right _ (List.mem_singleton_self _))))
  unfold advance
  rw [hany w, if_neg Bool.false_ne_true, show (words.any fun v => [upper b].isPrefixOf v) = false from
    hany [], if_neg Bool.false_ne_true]

/-- **The table looks for the words.** -/
theorem find_javascriptNorm (b : Byte) {i : ℕ} (hi : atRest i = true) :
    ∃ m, find javascriptNorm (isChar (toupper b.toInt)) i = some m ∧
      meets (advance (place i) b) m = true := by
  have hlt : i < Z3 + 9 := by
    unfold atRest at hi
    simp only [Bool.or_eq_true, Bool.and_eq_true, decide_eq_true_eq] at hi
    obtain hi | ⟨⟨⟨hi, -⟩, -⟩, -⟩ := hi
    · rw [hi]
      decide
    · exact hi
  have hany : (find javascriptNorm (isChar (toupper b.toInt)) i).any (meets (advance (place i) b)) =
      true := by
    by_cases hu : upper b ∈ letters
    · have hupper := upper_letters _ hu
      rw [← toInt_upper, advance_upper (u := upper b) hupper.symm]
      exact find_letter _ hu i hlt hi
    · have hcongr : find javascriptNorm (isChar (toupper b.toInt)) i =
          find javascriptNorm (fun _ => false) i := by
        refine find_congr (fun m hm hne => ?_) i
        obtain ⟨hlt', hmem⟩ := letters_events m hm hne
        refine decide_eq_false fun heq => hu ?_
        rw [← toInt_upper] at heq
        have hupper : upper b = BitVec.ofNat 8 m.event := by
          rw [← BitVec.toInt_inj, ← heq, BitVec.toInt_eq_toNat_cond, BitVec.toNat_ofNat,
            Nat.mod_eq_of_lt (by omega), if_pos (by omega)]
        rwa [hupper]
      rw [hcongr, advance_noLetter hu]
      exact find_noLetter i hlt hi
  obtain ⟨m, hm, hmeets⟩ := (Option.any_eq_true _ _).1 hany
  exact ⟨m, hm, hmeets⟩

/-! ### Scripts that fit -/

section Fits

variable {w l : List Byte} {b : Byte}

theorem scriptWord_notMem : scriptWord ∉ unescapeWords := by decide

theorem charCodeWord_notMem : charCodeWord ∉ unescapeWords := by decide

theorem charCodeWord_ne : charCodeWord ≠ scriptWord := by decide

theorem mem_words_of_unescape {v : List Byte} (h : v ∈ unescapeWords) : v ∈ words :=
  List.mem_cons_of_mem _ (List.mem_cons_of_mem _ h)

theorem fits_blank (hb : blank b = true) : Fits w (b :: l) ↔ Fits w l := by
  refine ⟨fun h => ?_, .blank hb⟩
  cases h with
  | blank _ hl => exact hl
  | step hb' => exact absurd (hb.symm.trans hb') (by decide)
  | script hb' => exact absurd (hb.symm.trans hb') (by decide)
  | unescape hb' => exact absurd (hb.symm.trans hb') (by decide)
  | charCode hb' => exact absurd (hb.symm.trans hb') (by decide)

theorem fits_step (hb : blank b = false) (hw : advance w b ∉ words) :
    Fits w (b :: l) ↔ Fits (advance w b) l := by
  refine ⟨fun h => ?_, .step hb hw⟩
  cases h with
  | blank hb' => exact absurd (hb.symm.trans hb') (by decide)
  | step _ _ hl => exact hl
  | script _ hw' => exact absurd (hw' ▸ List.mem_cons_of_mem _ List.mem_cons_self) hw
  | unescape _ hw' => exact absurd (mem_words_of_unescape hw') hw
  | charCode _ hw' => exact absurd (hw' ▸ List.mem_cons_self) hw

theorem fits_unescape (hb : blank b = false) (hw : advance w b ∈ unescapeWords) :
    Fits w (b :: l) ↔ ∃ rest, unescapeSpan 0 false (b :: l) = some (some rest) ∧ Fits [] rest := by
  refine ⟨fun h => ?_, fun ⟨rest, hspan, hl⟩ => .unescape hb hw hspan hl⟩
  cases h with
  | blank hb' => exact absurd (hb.symm.trans hb') (by decide)
  | step _ hw' => exact absurd (mem_words_of_unescape hw) hw'
  | script _ hw' => exact absurd (hw' ▸ hw) scriptWord_notMem
  | unescape _ _ hspan hl => exact ⟨_, hspan, hl⟩
  | charCode _ hw' => exact absurd (hw' ▸ hw) charCodeWord_notMem

theorem fits_charCode (hb : blank b = false) (hw : advance w b = charCodeWord) :
    Fits w (b :: l) ↔ ∃ out rest, charCodes .start [] [] l = some (some (out, rest)) ∧
      unescapeSpan 0 false out ≠ none ∧ Fits [] rest := by
  refine ⟨fun h => ?_, fun ⟨out, rest, hcodes, hspan, hl⟩ => .charCode hb hw hcodes hspan hl⟩
  cases h with
  | blank hb' => exact absurd (hb.symm.trans hb') (by decide)
  | step _ hw' => exact absurd (hw ▸ List.mem_cons_self) hw'
  | script _ hw' => exact absurd (hw.symm.trans hw') charCodeWord_ne
  | unescape _ hw' => exact absurd (hw ▸ hw') charCodeWord_notMem
  | charCode _ _ hcodes hspan hl => exact ⟨_, _, hcodes, hspan, hl⟩

/-! ### What is left behind a call -/

theorem unescapeSpan_suffix {depth : ℕ} {fresh : Bool} {rest : List Byte} :
    unescapeSpan depth fresh l = some (some rest) → chr ')' :: rest <:+ l := by
  fun_induction unescapeSpan depth fresh l
  case case1 => simp
  case case2 => simp
  case case3 ih | case5 ih | case6 ih | case7 ih =>
    exact fun h => (ih h).trans (List.suffix_cons _ _)
  case case4 =>
    intro h
    rw [← Option.some.inj (Option.some.inj h)]

theorem charCodes_suffix {out rest : List Byte} :
    ∀ {r : Radix} {digits out' : List Byte},
      charCodes r digits out' l = some (some (out, rest)) → rest <:+ l := by
  induction l with
  | nil => exact fun h => absurd h (by simp [charCodes])
  | cons b l ih =>
    intro r digits out' h
    have hnext : ∀ {r : Radix} {digits out' : List Byte},
        charCodes r digits out' l = some (some (out, rest)) → rest <:+ b :: l := fun h =>
      (ih h).trans (List.suffix_cons b l)
    rw [charCodes] at h
    by_cases hascii : isAscii b = false
    · rw [if_pos hascii] at h
      cases h
    rw [if_neg hascii] at h
    by_cases hblank : blank b = true
    · rw [if_pos hblank] at h
      obtain ⟨out₁, -, h⟩ := Option.bind_eq_some_iff.1 h
      exact hnext h
    · rw [if_neg hblank] at h
      cases hstep : r.step b with
      | some next =>
        rw [hstep] at h
        exact hnext h
      | none =>
        rw [hstep] at h
        obtain ⟨out₁, -, h⟩ := Option.bind_eq_some_iff.1 h
        split_ifs at h
        · exact hnext h
        · obtain ⟨-, rfl⟩ := Prod.mk.inj (Option.some.inj (Option.some.inj h))
          exact List.suffix_cons b l
        · obtain ⟨-, rfl⟩ := Prod.mk.inj (Option.some.inj (Option.some.inj h))
          exact List.suffix_rfl

end Fits

/-- The source behind the character that a call ends with. -/
theorem drop_stopAt {src rest : List Byte} (hsuffix : rest <:+ src) (hne : rest.length < src.length) :
    stopAt src.length (some rest) + 1 ≤ src.length ∧
      src.drop (stopAt src.length (some rest) + 1) = rest := by
  have hstop : stopAt src.length (some rest) + 1 = src.length - rest.length := by
    show src.length - (rest.length + 1) + 1 = _
    omega
  rw [hstop]
  exact ⟨Nat.sub_le _ _, (List.suffix_iff_eq_drop.1 hsuffix).symm⟩

/-! ### The actions -/

section Actions

variable {destlen : ℕ} {s : JSNormState} (unicodeMap : Option (ℕ → ℤ)) (js : JSState)

theorem writeJSNormChar_returns (h : s.dest.Within destlen) (c : ℤ) :
    ∃ s' js', writeJSNormChar destlen s c js = some (s', js') ∧ s'.dest.Within destlen ∧
      s'.fsm = s.fsm := by
  obtain ⟨d, hput, hwithin, -⟩ := Dbuf.put_returns h c
  unfold writeJSNormChar
  rw [hput]
  exact ⟨_, _, rfl, hwithin, rfl⟩

theorem writeJSNorm_returns (h : s.dest.Within destlen) {copyLen : ℕ} (hcopy : copyLen ≤ decodedOutSize) :
    ∃ s' js', writeJSNorm destlen s copyLen js = some (s', js') ∧ s'.dest.Within destlen ∧
      s'.fsm = s.fsm := by
  obtain ⟨hlen, hsize⟩ := h
  unfold writeJSNorm
  by_cases hpos : 0 < copyLen
  · rw [if_pos hpos]
    dsimp only
    rw [if_pos (by omega), Dbuf.append, List.length_map, List.length_range, if_pos (by omega),
      Dbuf.setLen_eq _ (by dsimp only; omega)]
    exact ⟨_, _, rfl, ⟨by dsimp only; omega, hsize⟩, rfl⟩
  · rw [if_neg hpos, Dbuf.setLen_eq _ hlen]
    exact ⟨_, _, rfl, ⟨hlen, hsize⟩, rfl⟩

/-- What an action does besides the calls. -/
def ActionJSNorm.ret (a : ActionJSNorm) : Ret := if a = .quit then .quit else .ok

theorem jsnormAct_plain (src : List Byte) (h : s.dest.Within destlen) {a : ActionJSNorm}
    (hunescape : a ≠ .unescape) (hsfcc : a ≠ .sfcc) (c : ℤ) (ptr : ℕ) :
    ∃ s' js', jsnormAct unicodeMap src destlen s a c ptr js = some (s', ptr, js', a.ret) ∧
      s'.dest.Within destlen ∧ s'.fsm = s.fsm := by
  cases a with
  | nop =>
    obtain ⟨s', js', hwrite, hgood⟩ := writeJSNormChar_returns js h c
    refine ⟨s', js', ?_, hgood⟩
    unfold jsnormAct
    dsimp only
    rw [hwrite]
    rfl
  | save =>
    obtain ⟨s', js', hwrite, hgood⟩ := writeJSNormChar_returns
      (s := { s with overwrite := some s.dest.len }) js h c
    refine ⟨s', js', ?_, hgood⟩
    unfold jsnormAct
    dsimp only
    rw [hwrite]
    rfl
  | quit =>
    obtain ⟨s', js', hwrite, hgood⟩ := writeJSNormChar_returns js h c
    refine ⟨s', js', ?_, hgood⟩
    unfold jsnormAct
    dsimp only
    rw [hwrite]
    rfl
  | space =>
    unfold jsnormAct
    dsimp only
    split_ifs
    · obtain ⟨s', js', hwrite, hwithin, hfsm⟩ := writeJSNormChar_returns js h c
      rw [hwrite]
      exact ⟨_, _, rfl, hwithin, hfsm⟩
    · exact ⟨_, _, rfl, h, rfl⟩
  | unescape => exact absurd rfl hunescape
  | sfcc => exact absurd rfl hsfcc

/-- What a call leaves: the pointer is where its arguments end. -/
structure Leaves (destlen : ℕ) (s : JSNormState) (stop : ℕ) (r : JSNormState × ℕ × JSState × Ret) :
    Prop where
  dest : r.1.dest.Within destlen
  fsm : r.1.fsm = s.fsm
  ptr : r.2.1 = stop
  ret : r.2.2.2 = .ok

/-- The output goes back to the place of the call, and what has been decoded is copied. -/
theorem rewind_write_returns (h : s.dest.Within destlen) (ptr : ℕ) (decodedOut : ℕ → Byte)
    {copyLen : ℕ} (hcopy : copyLen ≤ decodedOutSize) :
    ∃ n r, s.dest.rewind s.overwrite = some { s.dest with len := n } ∧
      (do
        let (s, js) ← writeJSNorm destlen
          { s with dest := { s.dest with len := n }, decodedOut := decodedOut } copyLen js
        return (s, ptr, js, Ret.ok) : Option (JSNormState × ℕ × JSState × Ret)) = some r ∧
      Leaves destlen s ptr r := by
  obtain ⟨n, hrewind, hn⟩ := Dbuf.rewind_returns h s.overwrite
  obtain ⟨s', js', hwrite, hwithin, hfsm⟩ := writeJSNorm_returns
    (s := { s with dest := { s.dest with len := n }, decodedOut := decodedOut }) js
    ⟨hn.trans h.len, h.size⟩ hcopy
  refine ⟨n, (s', ptr, js', .ok), hrewind, ?_, hwithin, hfsm, rfl, rfl⟩
  rw [hwrite]
  rfl

theorem jsnormAct_unescape {src l : List Byte} (h : s.dest.Within destlen) {ptr : ℕ}
    (hl : src.drop ptr = l) (hptr : ptr ≤ src.length) (c : ℤ) :
    (unescapeSpan 0 false l = none →
      jsnormAct unicodeMap src destlen s .unescape c ptr js = none) ∧
    ∀ stop, unescapeSpan 0 false l = some stop →
      ∃ r, jsnormAct unicodeMap src destlen s .unescape c ptr js = some r ∧
        Leaves destlen s (stopAt src.length stop) r := by
  have hlength : ptr + l.length = src.length := by
    rw [← hl, List.length_drop]
    omega
  have hsource : Source (fun _ i => src[i]?) l ptr s.decodedOut := by
    intro k hk _ _
    have hget : (src.drop ptr)[k]? = src[ptr + k]? := List.getElem?_drop
    rw [hl, List.getElem?_eq_getElem hk] at hget
    exact hget.symm
  obtain ⟨hstops, hbound⟩ := unescapeDecode_ptr unicodeMap js hlength hsource
  unfold jsnormAct
  dsimp only
  cases hdecode : unescapeDecode unicodeMap (fun _ i => src[i]?) src.length ptr s.decodedOut js with
  | none =>
    rw [hdecode] at hstops
    refine ⟨fun _ => ?_, fun stop hstop => ?_⟩
    · obtain ⟨n, hrewind, -⟩ := Dbuf.rewind_returns h s.overwrite
      rw [hrewind]
      rfl
    · rw [hstop] at hstops
      cases hstops
  | some q =>
    obtain ⟨p, out, n, js'⟩ := q
    rw [hdecode] at hstops
    refine ⟨fun hnone => ?_, fun stop hstop => ?_⟩
    · rw [hnone] at hstops
      cases hstops
    · rw [hstop] at hstops
      obtain rfl : p = stopAt src.length stop := Option.some.inj hstops
      obtain ⟨k, r, hrewind, hwrite, hleaves⟩ :=
        rewind_write_returns js' h (stopAt src.length stop) out (hbound _ hdecode)
      rw [hrewind]
      exact ⟨r, hwrite, hleaves⟩

theorem jsnormAct_sfcc {src l : List Byte} (h : s.dest.Within destlen) {ptr : ℕ}
    (hl : src.drop ptr = chr '(' :: l) (hptr : 0 < ptr) (c : ℤ) :
    (∀ r, jsnormAct unicodeMap src destlen s .sfcc c ptr js = some r →
      ∃ stop, charCodes .start [] [] l = some stop ∧
        (stop = none → r.2.1 = src.length ∧ r.2.2.2 = .ok) ∧
        ∀ out rest, stop = some (out, rest) → unescapeSpan 0 false out ≠ none ∧
          Leaves destlen s (stopAt src.length (some rest)) r) ∧
    ∀ out rest, charCodes .start [] [] l = some (some (out, rest)) → unescapeSpan 0 false out ≠ none →
      ∃ r, jsnormAct unicodeMap src destlen s .sfcc c ptr js = some r := by
  obtain ⟨hstops, hreturns⟩ := stringFromCharCodeDecode_ptr unicodeMap js hl hptr s.decodedOut
  have hact : ∀ q, stringFromCharCodeDecode unicodeMap src ptr s.decodedOut js = some q →
      q.2.2.1 ≤ decodedOutSize → ∃ r, jsnormAct unicodeMap src destlen s .sfcc c ptr js = some r ∧
        Leaves destlen s q.1 r := by
    intro q hdecode hbound
    obtain ⟨n, r, hrewind, hwrite, hleaves⟩ := rewind_write_returns q.2.2.2 h q.1 q.2.1 hbound
    refine ⟨r, ?_, hleaves⟩
    unfold jsnormAct
    dsimp only
    rw [hrewind, Option.bind_eq_bind, Option.bind_some, hdecode]
    exact hwrite
  refine ⟨fun r hr => ?_, fun out rest hcodes hspan => ?_⟩
  · have hr' := hr
    unfold jsnormAct at hr'
    dsimp only at hr'
    obtain ⟨dest, -, hr'⟩ := Option.bind_eq_some_iff.1 hr'
    obtain ⟨q, hdecode, hr'⟩ := Option.bind_eq_some_iff.1 hr'
    obtain ⟨stop, hcodes, hp, hdecoded⟩ := hstops q hdecode
    refine ⟨stop, hcodes, fun hnone => ?_, fun out rest hstop => ?_⟩
    · obtain ⟨⟨s', js'⟩, -, hr'⟩ := Option.bind_eq_some_iff.1 hr'
      obtain rfl := Option.some.inj hr'
      rw [hnone] at hp
      exact ⟨hp, rfl⟩
    · obtain ⟨hspan, hbound⟩ := hdecoded out rest hstop
      obtain ⟨r', hr'', hleaves⟩ := hact q hdecode hbound
      obtain rfl := Option.some.inj (hr.symm.trans hr'')
      rw [hstop] at hp
      exact ⟨hspan, hp ▸ hleaves⟩
  · obtain ⟨q, hdecode⟩ := hreturns out rest hcodes hspan
    obtain ⟨stop, hcodes', -, hdecoded⟩ := hstops q hdecode
    obtain ⟨-, hbound⟩ := hdecoded out rest (Option.some.inj (hcodes'.symm.trans hcodes))
    obtain ⟨r, hr, -⟩ := hact q hdecode hbound
    exact ⟨r, hr⟩

end Actions

/-! ### The loop of `JSNormalizeDecode` -/

theorem eq_open_of_upper {b : Byte} (h : upper b = chr '(') : b = chr '(' := by
  have hupper : toupper b.toInt = 40 := by
    rw [← toInt_upper, h]
    decide
  rw [← BitVec.toInt_inj, show (chr '(').toInt = 40 by decide]
  unfold toupper at hupper
  split_ifs at hupper with hletter
  · omega
  · exact hupper

/-- The name of `String.fromCharCode` ends with the parenthesis, and does not start with it. -/
theorem eq_open_of_charCode {w : List Byte} {b : Byte} (h : advance w b = charCodeWord) :
    b = chr '(' ∧ w ≠ [] := by
  unfold advance at h
  split_ifs at h with _ hw
  · have hlast := congrArg List.getLast? h
    rw [List.getLast?_concat, show charCodeWord.getLast? = some (chr '(') by decide] at hlast
    refine ⟨eq_open_of_upper (Option.some.inj hlast), fun hnil => ?_⟩
    rw [hnil] at h
    exact absurd (congrArg List.length h) (show ¬1 = charCodeWord.length by decide)
  · exact absurd (hw.symm.trans h) (by decide)
  · exact absurd (congrArg List.length h) (show ¬1 = charCodeWord.length by decide)
  · exact absurd (congrArg List.length h) (by decide)

section Loop

variable {src : List Byte} {destlen : ℕ} {s : JSNormState} (unicodeMap : Option (ℕ → ℤ)) (js : JSState)

/-- A state between two characters, behind a part of a word. -/
structure JSNormState.At (destlen : ℕ) (s : JSNormState) (ptr : ℕ) (w : List Byte) : Prop where
  rest : atRest s.fsm = true
  place : place s.fsm = w
  dest : s.dest.Within destlen
  start : ptr = 0 → w = []

/-- A run of the loop that stays inside, if the text fits. -/
def Stays (src : List Byte) (destlen : ℕ) (fits : Prop)
    (run : Option (JSNormState × ℕ × JSState × Ret)) : Prop :=
  (∀ r, run = some r → fits ∧ r.1.dest.Within destlen ∧ r.2.1 ≤ src.length) ∧ (fits → run ≠ none)

/-- What follows a round of the loop. -/
def jsnormNext (unicodeMap : Option (ℕ → ℤ)) (src : List Byte) (destlen fuel : ℕ)
    (r : JSNormState × ℕ × JSState × Ret) : Option (JSNormState × ℕ × JSState × Ret) :=
  if r.2.2.2 ≠ .ok then some r
  else (movePtr src.length (r.2.1 + 1)).bind fun ptr =>
    jsnormLoop unicodeMap src destlen fuel r.1 ptr r.2.2.1

/-- The loop, as long as `fuel` is enough. -/
def LoopStays (unicodeMap : Option (ℕ → ℤ)) (src : List Byte) (destlen fuel : ℕ) : Prop :=
  ∀ {ptr : ℕ} {s : JSNormState} (js : JSState) {w l : List Byte}, src.drop ptr = l →
    ptr ≤ src.length → l.length < fuel → s.At destlen ptr w →
    Stays src destlen (Fits w l) (jsnormLoop unicodeMap src destlen fuel s ptr js)

theorem jsnormLoop_succ {fuel ptr : ℕ} {b : Byte} (hptr : ptr < src.length) (hget : src[ptr]? = some b) :
    jsnormLoop unicodeMap src destlen (fuel + 1) s ptr js =
      (jsnormScanFsm unicodeMap src destlen s b.toInt ptr js).bind
        (jsnormNext unicodeMap src destlen fuel) := by
  rw [jsnormLoop, if_pos hptr, hget]
  rfl

theorem jsnormExec_eq (a : ActionJSNorm) (c : ℤ) (ptr : ℕ) :
    jsnormExec unicodeMap src destlen s a c ptr js =
      (jsnormAct unicodeMap src destlen s a c ptr js).map fun r =>
        ({ r.1 with prevEvent := BitVec.ofInt 8 c }, r.2) := by
  unfold jsnormExec
  cases jsnormAct unicodeMap src destlen s a c ptr js <;> rfl

theorem jsnormScanFsm_row {b : Byte} (hblank : blank b = false) {m : JSNorm ActionJSNorm}
    (hfind : find javascriptNorm (isChar (toupper b.toInt)) s.fsm = some m) (ptr : ℕ) :
    jsnormScanFsm unicodeMap src destlen s b.toInt ptr js =
      jsnormExec unicodeMap src destlen { s with fsm := m.next } m.action b.toInt ptr js := by
  unfold jsnormScanFsm
  rw [show isspace b.toInt = false from hblank, if_neg Bool.false_ne_true, hfind, Option.bind_eq_bind,
    Option.bind_some]

section Round

variable {l : List Byte} {b : Byte} {fuel ptr : ℕ}

/-- A round that is no call. -/
theorem stays_plain (ih : LoopStays unicodeMap src destlen fuel) (hl : src.drop ptr = b :: l)
    (hfuel : l.length < fuel) {w : List Byte} (hrest : atRest s.fsm = true) (hplace : place s.fsm = w)
    (h : s.dest.Within destlen) {a : ActionJSNorm} (hunescape : a ≠ .unescape) (hsfcc : a ≠ .sfcc)
    (hquit : a ≠ .quit) (c : ℤ) :
    Stays src destlen (Fits w l)
      ((jsnormExec unicodeMap src destlen s a c ptr js).bind
        (jsnormNext unicodeMap src destlen fuel)) := by
  obtain ⟨hlength, -, hl'⟩ := drop_eq_cons hl
  obtain ⟨s', js', hact, hwithin, hfsm⟩ := jsnormAct_plain unicodeMap js src h hunescape hsfcc c ptr
  have hret : a.ret = .ok := if_neg hquit
  rw [jsnormExec_eq, hact, hret, Option.map_some, Option.bind_some, jsnormNext, if_neg (by simp)]
  dsimp only
  rw [movePtr, if_pos (by omega), Option.bind_some]
  refine ih js' hl' (by omega) hfuel ⟨?_, ?_, hwithin, fun hzero => absurd hzero (Nat.succ_ne_zero ptr)⟩
  · show atRest s'.fsm = true
    rwa [hfsm]
  · show place s'.fsm = w
    rwa [hfsm]

/-- The round behind a call. -/
theorem stays_call (ih : LoopStays unicodeMap src destlen fuel) {rest : List Byte}
    (hrest : rest <:+ src) (hlt : rest.length < src.length) (hfuel : rest.length < fuel)
    (hs : s.fsm = Z0) {r : JSNormState × ℕ × JSState × Ret}
    (hr : Leaves destlen s (stopAt src.length (some rest)) r) (c : ℤ) :
    Stays src destlen (Fits [] rest)
      (jsnormNext unicodeMap src destlen fuel ({ r.1 with prevEvent := BitVec.ofInt 8 c }, r.2)) := by
  obtain ⟨hstop, hdrop⟩ := drop_stopAt hrest hlt
  have hfsm : r.1.fsm = Z0 := hr.fsm.trans hs
  rw [jsnormNext, if_neg (not_not.2 hr.ret)]
  dsimp only
  rw [hr.ptr, movePtr, if_pos hstop, Option.bind_some]
  refine ih _ hdrop hstop hfuel ⟨?_, ?_, hr.dest, fun _ => rfl⟩
  · show atRest r.1.fsm = true
    rw [hfsm]
    decide
  · show place r.1.fsm = []
    rw [hfsm]
    decide

/-- Behind a call that comes to the end of the source the pointer is moved once more. -/
theorem next_end (s : JSNormState) {q : ℕ × JSState × Ret} (hptr : q.1 = src.length)
    (hret : q.2.2 = .ok) : jsnormNext unicodeMap src destlen fuel (s, q) = none := by
  rw [jsnormNext, if_neg (not_not.2 hret), hptr, movePtr, if_neg (by omega)]
  rfl

theorem stays_unescape (ih : LoopStays unicodeMap src destlen fuel) (hl : src.drop ptr = b :: l)
    (hfuel : l.length < fuel) (hs : s.fsm = Z0) (h : s.dest.Within destlen) (c : ℤ) :
    Stays src destlen (∃ rest, unescapeSpan 0 false (b :: l) = some (some rest) ∧ Fits [] rest)
      ((jsnormExec unicodeMap src destlen s .unescape c ptr js).bind
        (jsnormNext unicodeMap src destlen fuel)) := by
  obtain ⟨hlength, -, -⟩ := drop_eq_cons hl
  obtain ⟨hnone, hsome⟩ := jsnormAct_unescape unicodeMap js h hl (by omega) c
  rw [jsnormExec_eq]
  cases hspan : unescapeSpan 0 false (b :: l) with
  | none =>
    rw [hnone hspan]
    exact ⟨fun _ hr => absurd hr.symm (Option.some_ne_none _), fun ⟨_, h, _⟩ => absurd h.symm (by simp)⟩
  | some stop =>
    obtain ⟨r, hact, hleaves⟩ := hsome stop hspan
    rw [hact, Option.map_some, Option.bind_some]
    cases stop with
    | none =>
      rw [next_end unicodeMap _ hleaves.ptr hleaves.ret]
      exact ⟨fun _ hr => absurd hr.symm (Option.some_ne_none _), fun ⟨_, h, _⟩ => absurd h (by simp)⟩
    | some rest =>
      have hsuffix := unescapeSpan_suffix hspan
      have hle := hsuffix.length_le
      rw [List.length_cons, List.length_cons] at hle
      have hsrc : rest <:+ src :=
        (List.suffix_cons _ _).trans (hsuffix.trans (hl ▸ List.drop_suffix ptr src))
      have hstays := stays_call unicodeMap ih hsrc (by omega) (by omega) hs hleaves c
      have hiff : (∃ rest', some (some rest) = some (some rest') ∧ Fits [] rest') ↔ Fits [] rest :=
        ⟨fun ⟨rest', heq, hfits⟩ => by rwa [Option.some.inj (Option.some.inj heq)],
          fun hfits => ⟨rest, rfl, hfits⟩⟩
      rwa [hiff]

theorem stays_sfcc (ih : LoopStays unicodeMap src destlen fuel) (hl : src.drop ptr = chr '(' :: l)
    (hptr : 0 < ptr) (hfuel : l.length < fuel) (hs : s.fsm = Z0) (h : s.dest.Within destlen) (c : ℤ) :
    Stays src destlen
      (∃ out rest, charCodes .start [] [] l = some (some (out, rest)) ∧
        unescapeSpan 0 false out ≠ none ∧ Fits [] rest)
      ((jsnormExec unicodeMap src destlen s .sfcc c ptr js).bind
        (jsnormNext unicodeMap src destlen fuel)) := by
  obtain ⟨hlength, -, hl'⟩ := drop_eq_cons hl
  obtain ⟨hstops, hreturns⟩ := jsnormAct_sfcc unicodeMap js h hl hptr c
  rw [jsnormExec_eq]
  cases hact : jsnormAct unicodeMap src destlen s .sfcc c ptr js with
  | none =>
    refine ⟨fun _ hr => absurd hr.symm (Option.some_ne_none _), fun ⟨out, rest, hcodes, hspan, _⟩ => ?_⟩
    obtain ⟨r, hr⟩ := hreturns out rest hcodes hspan
    exact absurd (hact.symm.trans hr) (Option.some_ne_none r).symm
  | some r =>
    obtain ⟨stop, hcodes, hend, hleaves⟩ := hstops r hact
    rw [Option.map_some, Option.bind_some, hcodes]
    cases stop with
    | none =>
      rw [next_end unicodeMap _ (hend rfl).1 (hend rfl).2]
      exact ⟨fun _ hr => absurd hr.symm (Option.some_ne_none _), fun ⟨_, _, h, _⟩ => absurd h (by simp)⟩
    | some stop =>
      obtain ⟨out, rest⟩ := stop
      obtain ⟨hspan, hleaves⟩ := hleaves out rest rfl
      have hsuffix := charCodes_suffix hcodes
      have hle := hsuffix.length_le
      have hsrc : rest <:+ src := hsuffix.trans (hl' ▸ List.drop_suffix (ptr + 1) src)
      have hstays := stays_call unicodeMap ih hsrc (by omega) (by omega) hs hleaves c
      have hiff : (∃ out' rest', some (some (out, rest)) = some (some (out', rest')) ∧
          unescapeSpan 0 false out' ≠ none ∧ Fits [] rest') ↔ Fits [] rest := by
        refine ⟨fun ⟨out', rest', heq, _, hfits⟩ => ?_, fun hfits => ⟨out, rest, rfl, hspan, hfits⟩⟩
        obtain ⟨-, rfl⟩ := Prod.mk.inj (Option.some.inj (Option.some.inj heq))
        exact hfits
      rwa [hiff]

end Round

/-- **The loop stays inside the arrays if the text fits**, from any place of it on. -/
theorem jsnormLoop_stays (fuel : ℕ) : LoopStays unicodeMap src destlen fuel := by
  induction fuel with
  | zero => exact fun _ _ _ _ _ hfuel => absurd hfuel (Nat.not_lt_zero _)
  | succ fuel ih =>
    intro ptr s js w l hl hptr hfuel h
    cases l with
    | nil =>
      have hend : ptr = src.length := hptr.antisymm (List.drop_eq_nil_iff.1 hl)
      rw [jsnormLoop, if_neg (by omega)]
      refine ⟨fun r hr => ?_, fun _ => Option.some_ne_none _⟩
      rw [← Option.some.inj hr]
      exact ⟨.nil w, h.dest, hptr⟩
    | cons b l =>
      obtain ⟨hlength, hget, -⟩ := drop_eq_cons hl
      rw [List.length_cons] at hfuel
      rw [jsnormLoop_succ unicodeMap js (by omega) hget]
      cases hblank : blank b with
      | true =>
        unfold jsnormScanFsm
        rw [fits_blank hblank, show isspace b.toInt = true from hblank, if_pos rfl]
        exact stays_plain unicodeMap js ih hl (by omega) h.rest h.place h.dest (by decide) (by decide)
          (by decide) 32
      | false =>
        obtain ⟨m, hfind, hmeets⟩ := find_javascriptNorm b h.rest
        have hdest : ({ s with fsm := m.next } : JSNormState).dest.Within destlen := h.dest
        rw [h.place] at hmeets
        rw [jsnormScanFsm_row unicodeMap js hblank hfind]
        unfold meets at hmeets
        -- a row inside a word
        have hinside : advance w b ∉ words ∧ place m.next = advance w b ∧ atRest m.next = true →
            m.action ≠ .unescape → m.action ≠ .sfcc → m.action ≠ .quit →
            Stays src destlen (Fits w (b :: l))
              ((jsnormExec unicodeMap src destlen { s with fsm := m.next } m.action b.toInt ptr js).bind
                (jsnormNext unicodeMap src destlen fuel)) := by
          rintro ⟨hw, hplace, hrest⟩ hunescape hsfcc hquit
          rw [fits_step hblank hw]
          exact stays_plain unicodeMap js ih hl (by omega) hrest hplace hdest hunescape hsfcc hquit _
        cases haction : m.action with
        | nop =>
          rw [haction] at hmeets hinside
          exact hinside (by simpa [and_assoc] using hmeets) (by decide) (by decide) (by decide)
        | save =>
          rw [haction] at hmeets hinside
          exact hinside (by simpa [and_assoc] using hmeets) (by decide) (by decide) (by decide)
        | space =>
          rw [haction] at hmeets
          exact absurd hmeets Bool.false_ne_true
        | quit =>
          rw [haction] at hmeets
          have hw : advance w b = scriptWord := of_decide_eq_true hmeets
          obtain ⟨s', js', hact, hwithin, -⟩ := jsnormAct_plain unicodeMap js src hdest
            (show ActionJSNorm.quit ≠ .unescape by decide) (by decide) b.toInt ptr
          rw [jsnormExec_eq, hact]
          refine ⟨fun r hr => ?_, fun _ => Option.some_ne_none _⟩
          rw [← Option.some.inj hr]
          exact ⟨.script hblank hw, hwithin, hptr⟩
        | unescape =>
          rw [haction] at hmeets
          simp only [Bool.and_eq_true, decide_eq_true_eq] at hmeets
          rw [fits_unescape hblank hmeets.1]
          exact stays_unescape unicodeMap js ih hl (by omega) hmeets.2 hdest _
        | sfcc =>
          rw [haction] at hmeets
          simp only [Bool.and_eq_true, decide_eq_true_eq] at hmeets
          obtain ⟨hw, hnext⟩ := hmeets
          obtain ⟨rfl, hne⟩ := eq_open_of_charCode hw
          rw [fits_charCode hblank hw]
          exact stays_sfcc unicodeMap js ih hl (Nat.pos_of_ne_zero fun hzero => hne (h.start hzero))
            (by omega) hnext hdest _

/-- **When all accesses are inside**: the pointer and the output stay inside, and so does every index,
exactly if the calls of the script fit. -/
theorem jsNormalizeDecode_safe_iff (dst : ℕ → Byte) (decodedOut : ℕ → Byte) :
    (∃ r, jsNormalizeDecode unicodeMap src dst destlen decodedOut js = some r ∧
      r.bytesCopied ≤ destlen ∧ r.ptr ≤ src.length) ↔ Fits [] src := by
  have hstart : (⟨0, 0, 0, none, ⟨dst, destlen, 0⟩, decodedOut⟩ : JSNormState).At destlen 0 [] :=
    ⟨show atRest 0 = true by decide, show place 0 = [] by decide, ⟨Nat.zero_le _, le_rfl⟩, fun _ => rfl⟩
  obtain ⟨hfits, hruns⟩ := jsnormLoop_stays unicodeMap (src.length + 1) js (List.drop_zero)
    (Nat.zero_le src.length) (Nat.lt_succ_self src.length) hstart
  unfold jsNormalizeDecode
  refine ⟨fun ⟨r, hr, _⟩ => ?_, fun h => ?_⟩
  · obtain ⟨q, hloop, -⟩ := Option.bind_eq_some_iff.1 hr
    exact (hfits q hloop).1
  · obtain ⟨⟨s, ptr, js', ret⟩, hloop⟩ := Option.ne_none_iff_exists'.1 (hruns h)
    obtain ⟨-, hdest, hptr⟩ := hfits _ hloop
    rw [hloop, Option.bind_eq_bind, Option.bind_some]
    dsimp only at hdest hptr ⊢
    have hlen : s.dest.len ≤ destlen := hdest.len.trans hdest.size
    split_ifs with hquit
    · rw [movePtr, if_pos (show ptr + 1 ≤ src.length from hquit.1)]
      exact ⟨_, rfl, hlen, hquit.1⟩
    · exact ⟨_, rfl, hlen, hptr⟩

end Loop

/-- `unescape(` at the end of the text: the pointer is moved behind the end. -/
theorem unescape_atEnd :
    ¬∃ r, jsNormalizeDecode none ("unescape(".toList.map chr) (fun _ => 0) 16 (fun _ => 0) ⟨0, 1, 0⟩ =
      some r ∧ r.bytesCopied ≤ 16 ∧ r.ptr ≤ 9 := by
  have hnone : jsNormalizeDecode none ("unescape(".toList.map chr) (fun _ => 0) 16 (fun _ => 0)
      ⟨0, 1, 0⟩ = none := by
    have hsrc : "unescape(".toList = ['u', 'n', 'e', 's', 'c', 'a', 'p', 'e', '('] := String.toList_ofList
    rw [← Option.isNone_iff_eq_none, hsrc]
    decide +kernel
  rintro ⟨r, hr, -⟩
  exact absurd (hnone.symm.trans hr) (Option.some_ne_none r).symm

end Snort.Jsnorm
