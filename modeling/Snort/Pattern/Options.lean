import Snort.Pattern.Window

/-!
# Payload and URI contents

* `uniSearchReal_total`: the answers of the search, for any cursor;
* `uniSearchReal_shift`: the answer does not depend on where the buffer is;
* `xorFlag_neg`, `xorFlag_nonneg`: the answer and the negation;
* **`checkUri_isMatch_iff`**: the two option functions agree.
-/

namespace Snort.Pattern

open BoyerMoore CInt Mstring

/-! ### The search, for any cursor -/

section Search

variable {data uri : Buffer} {pmd : PatternMatchData} {doe doe' : Doe} {b b' d : ℤ}

variable (data pmd doe) in
/-- The search is given a region of the buffer for any cursor. -/
theorem uniSearchReal_total (extracted : Int8 → UInt32) :
    ∃ r doe', uniSearchReal extracted data pmd doe = some (r, getByteExtractValues extracted pmd, doe') ∧
      (r = -1 ∨ r = 0 ∨ r = 1) ∧
      (r = 1 → ∃ p : ℤ, doe'.doePtr = some (p + pmd.patternSize) ∧ data.start ≤ p ∧
        p + pmd.patternSize ≤ data.stop) := by
  unfold uniSearchReal
  generalize hpmd : getByteExtractValues extracted pmd = pmd'
  have hsize : pmd.patternSize = pmd'.patternSize := by rw [← hpmd]; rfl
  dsimp only
  generalize searchBase data pmd' (startDoe pmd doe).doePtr = bd
  generalize hcut : cutDepth data.bytes.length pmd' bd.2 = depth
  by_cases hbase : inBounds data.start data.stop bd.1
  · rw [if_neg (not_not.2 hbase)]
    by_cases hneg : bd.2 < 0
    · rw [if_pos hneg]
      exact ⟨-1, _, rfl, Or.inl rfl, fun h => absurd h (by decide)⟩
    · rw [if_neg hneg]
      by_cases hlast : inBounds data.start data.stop (bd.1 + depth - 1)
      · rw [if_neg (not_not.2 hlast)]
        have hin : data.start ≤ bd.1 ∧ bd.1 < data.stop := of_decide_eq_true hbase
        have hend : data.start ≤ bd.1 + depth - 1 ∧ bd.1 + depth - 1 < data.stop :=
          of_decide_eq_true hlast
        have hdepth : 0 ≤ depth := by
          rw [← hcut]
          unfold cutDepth
          dsimp only
          split_ifs <;> omega
        obtain ⟨r, doe', hrun, hresult⟩ :=
          searchRegion_spec pmd' (startDoe pmd doe) hin.1 hdepth (by omega)
        refine ⟨r, doe', hrun, ?_⟩
        rcases hresult with ⟨hr, p, hfirst, hdoe'⟩ | ⟨hr, -, -⟩
        · have hinside := hfirst.inside
          refine ⟨Or.inr (Or.inr hr), fun _ => ⟨p, ?_, hin.1.trans hinside.1, ?_⟩⟩
          · rw [hdoe', hsize]
            rfl
          · rw [hsize]
            exact hinside.2.trans (by omega)
        · exact ⟨Or.inr (Or.inl hr), fun h => absurd (hr.symm.trans h) (by decide)⟩
      · rw [if_pos hlast]
        exact ⟨0, _, rfl, Or.inr (Or.inl rfl), fun h => absurd h (by decide)⟩
  · rw [if_pos hbase]
    exact ⟨-1, _, rfl, Or.inl rfl, fun h => absurd h (by decide)⟩

variable (pmd doe) in
/-- Nothing is found in an empty buffer. -/
theorem uniSearchReal_empty (extracted : Int8 → UInt32) (hempty : data.bytes.length = 0) :
    (uniSearchReal extracted data pmd doe).map Prod.fst = some (-1) := by
  have hbounds : ∀ b, inBounds data.start data.stop b = false := by
    intro b
    unfold inBounds Buffer.stop
    exact decide_eq_false (by omega)
  unfold uniSearchReal
  dsimp only
  rw [hbounds, if_pos Bool.false_ne_true]
  rfl

theorem startPoint_eq (hsized : data.Sized) (ptr : Option ℤ) :
    startPoint data ptr =
      (ptr.getD data.start, i32 (data.bytes.length - (ptr.getD data.start - data.start))) := by
  have hlen : data.bytes.length < 2 ^ 31 := hsized
  cases ptr with
  | some p => rfl
  | none =>
    refine Prod.ext rfl ?_
    show (data.bytes.length : ℤ) = i32 (data.bytes.length - (data.start - data.start))
    rw [sub_self, sub_zero, i32_of_range (by omega) (by omega)]

variable (pmd) in
/-- The base moves with the buffer. -/
theorem searchBase_shift (hsized : data.Sized) (hbytes : uri.bytes = data.bytes)
    (hcursor : cursor data pmd doe - data.start = cursor uri pmd doe' - uri.start) :
    (searchBase uri pmd (startDoe pmd doe').doePtr).1 - uri.start =
        (searchBase data pmd (startDoe pmd doe).doePtr).1 - data.start ∧
      (searchBase uri pmd (startDoe pmd doe').doePtr).2 =
        (searchBase data pmd (startDoe pmd doe).doePtr).2 := by
  have hsized' : uri.Sized := by
    unfold Buffer.Sized
    rw [hbytes]
    exact hsized
  unfold searchBase
  rw [startPoint_eq hsized, startPoint_eq hsized', ← cursor_eq, ← cursor_eq, hcursor, hbytes]
  dsimp only
  split_ifs <;> exact ⟨by omega, rfl⟩

theorem inBounds_shift (hbytes : uri.bytes = data.bytes) (hb : b' - uri.start = b - data.start) :
    inBounds uri.start uri.stop b' = inBounds data.start data.stop b := by
  unfold inBounds Buffer.stop
  rw [hbytes]
  exact decide_eq_decide.2 (by omega)

theorem searchRegion_shift (hbytes : uri.bytes = data.bytes) (hb : b' - uri.start = b - data.start) :
    (searchRegion uri pmd doe' b' d).map Prod.fst = (searchRegion data pmd doe b d).map Prod.fst := by
  have hregion : uri.region b' d = data.region b d := by
    unfold Buffer.region Buffer.stop
    rw [hbytes, hb]
    exact if_congr (by omega) rfl rfl
  unfold searchRegion
  rw [hregion]
  cases data.region b d with
  | none => rfl
  | some buf =>
    rw [Option.bind_eq_bind, Option.bind_some, Option.bind_eq_bind, Option.bind_some]
    cases callSearch pmd buf <;> rfl

/-- **The answer of the search** does not depend on where the buffer is. -/
theorem uniSearchReal_shift (extracted : Int8 → UInt32) (hsized : data.Sized) (hbytes : uri.bytes = data.bytes)
    (hcursor : cursor data pmd doe - data.start = cursor uri pmd doe' - uri.start) :
    (uniSearchReal extracted uri pmd doe').map Prod.fst =
      (uniSearchReal extracted data pmd doe).map Prod.fst := by
  obtain ⟨hbase, hdepth⟩ :=
    searchBase_shift (getByteExtractValues extracted pmd) hsized hbytes hcursor
  unfold uniSearchReal
  generalize hpmd : getByteExtractValues extracted pmd = pmd' at hbase hdepth ⊢
  dsimp only
  have hstart : ∀ doe, startDoe pmd' doe = startDoe pmd doe := fun doe => by rw [← hpmd]; rfl
  rw [hstart, hstart] at hbase hdepth
  generalize searchBase data pmd' (startDoe pmd doe).doePtr = bd at hbase hdepth ⊢
  generalize searchBase uri pmd' (startDoe pmd doe').doePtr = bd' at hbase hdepth ⊢
  rw [inBounds_shift hbytes hbase, hdepth, hbytes]
  have hlast : inBounds uri.start uri.stop (bd'.1 + cutDepth data.bytes.length pmd' bd.2 - 1) =
      inBounds data.start data.stop (bd.1 + cutDepth data.bytes.length pmd' bd.2 - 1) :=
    inBounds_shift hbytes (by omega)
  rw [hlast]
  split_ifs
  · rfl
  · exact searchRegion_shift hbytes hbase
  · rfl
  · rfl

end Search

/-! ### The negation -/

theorem msb_flag (flag : BitVec 8) : (flag.setWidth 32).msb = false := by
  rw [BitVec.msb_setWidth, BitVec.getLsbD_of_ge _ _ (by decide), Bool.and_false]

theorem xorFlag_neg (flag : BitVec 8) : xorFlag (-1) flag < 0 := by
  unfold xorFlag
  have hmsb : (BitVec.ofInt 32 (-1) ^^^ flag.setWidth 32).msb = true := by
    rw [BitVec.msb_xor, msb_flag]
    rfl
  rw [BitVec.msb_eq_toInt] at hmsb
  exact of_decide_eq_true hmsb

theorem xorFlag_nonneg {found : ℤ} (h : found = 0 ∨ found = 1) (flag : BitVec 8) : 0 ≤ xorFlag found flag := by
  unfold xorFlag
  have hmsb : (BitVec.ofInt 32 found ^^^ flag.setWidth 32).msb = false := by
    rw [BitVec.msb_xor, msb_flag]
    rcases h with rfl | rfl <;> rfl
  rw [BitVec.msb_eq_toInt] at hmsb
  exact not_lt.1 (of_decide_eq_false hmsb)

theorem xorFlag_zero {found : ℤ} (h : found = 0 ∨ found = 1) : xorFlag found 0 = found := by
  rcases h with rfl | rfl <;> rfl

/-! ### The two option functions -/

section Options

variable {pmd : PatternMatchData} {p : Packet} {doe doe' : Doe} {i : ℕ} {uri : Buffer}

variable (extracted : Int8 → UInt32)

theorem noMatch_ne : OptionResult.noMatch ≠ .isMatch := by decide

/-- A payload content matches if the answer and the negation say so.  A replacement has its place in the
payload unless the content is negated. -/
theorem checkAND_spec (doe : Doe) (hsized : (payload pmd p).Sized)
    (hreplace : pmd.replaceBuf.isSome → p.wasCooked = false → pmd.exceptionFlag = 0) :
    ∃ found res, (uniSearchReal extracted (payload pmd p) pmd (payloadDoe doe)).map Prod.fst = some found ∧
      checkANDPatternMatch extracted pmd p doe = some res ∧
      (res.1 = .isMatch ↔ 0 < xorFlag found pmd.exceptionFlag) := by
  obtain ⟨found, doe', hrun, hfound, hplace⟩ := uniSearchReal_total (payload pmd p) pmd (payloadDoe doe) extracted
  rw [hrun]
  unfold checkANDPatternMatch
  dsimp only
  rw [hrun, Option.bind_eq_bind, Option.bind_some]
  dsimp only
  have hflag : (getByteExtractValues extracted pmd).exceptionFlag = pmd.exceptionFlag := rfl
  rw [hflag]
  -- out of bounds, or an answer
  by_cases herror : found = -1
  · subst herror
    rw [if_pos rfl, if_neg (not_not.2 rfl)]
    exact ⟨-1, _, rfl, rfl, fun h => absurd h noMatch_ne, fun h => absurd h (xorFlag_neg _).not_gt⟩
  · have hanswer : found = 0 ∨ found = 1 := hfound.resolve_left herror
    have hnonneg := xorFlag_nonneg hanswer pmd.exceptionFlag
    rw [if_neg herror]
    by_cases hzero : xorFlag found pmd.exceptionFlag = 0
    · rw [if_neg (not_not.2 hzero)]
      exact ⟨found, _, rfl, rfl, fun h => absurd h noMatch_ne, fun h => absurd hzero h.ne'⟩
    · rw [if_pos hzero]
      have hpos : 0 < xorFlag found pmd.exceptionFlag := lt_of_le_of_ne hnonneg (Ne.symm hzero)
      split_ifs with hrepl hbefore
      · -- the place of the pattern in the payload
        have hlen : (payload pmd p).bytes.length < 2 ^ 31 := hsized
        have hcooked : p.wasCooked = false := by simpa using hrepl.2
        rw [hreplace hrepl.1 hcooked, xorFlag_zero hanswer] at hpos
        obtain ⟨q, hq, hle, hend⟩ := hplace (by omega)
        have hstop : (payload pmd p).stop = (payload pmd p).start + (payload pmd p).bytes.length := rfl
        have hsize : (getByteExtractValues extracted pmd).patternSize = pmd.patternSize := rfl
        rw [hq, Option.getD_some, hsize, add_sub_cancel_right, i32_of_range (by omega) (by omega)] at hbefore
        exact absurd hle (by omega)
      · exact ⟨found, _, rfl, rfl, fun _ => hpos, fun _ => rfl⟩
      · exact ⟨found, _, rfl, rfl, fun _ => hpos, fun _ => rfl⟩

/-- No buffer is selected from `k` on. -/
theorem checkUriLoop_unselected {k : ℕ} (bufs : List (Option Buffer))
    (h : ∀ j, k ≤ j → pmd.uriBuffer.testBit j = false) :
    checkUriLoop extracted pmd doe k bufs = some (.noMatch, pmd, doe) := by
  induction bufs generalizing k with
  | nil => rfl
  | cons buf bufs ih =>
    have hrest := ih fun j hj => h j (Nat.le_of_succ_le hj)
    cases buf with
    | none => exact hrest
    | some uri =>
      rw [checkUriLoop, hrest, h k le_rfl, if_pos rfl, ite_self]

/-- One buffer is selected. -/
theorem checkUriLoop_selected (doe : Doe) {k : ℕ} (bufs : List (Option Buffer))
    (hsel : ∀ j, pmd.uriBuffer.testBit j = decide (j = i)) (hk : k ≤ i) (huri : bufs[i - k]? = some (some uri)) :
    ∃ found res, (uniSearchReal extracted uri pmd (uriDoe pmd uri doe)).map Prod.fst = some found ∧
      checkUriLoop extracted pmd doe k bufs = some res ∧
      (res.1 = .isMatch ↔ 0 < xorFlag found pmd.exceptionFlag) := by
  have hafter : ∀ j, i + 1 ≤ j → pmd.uriBuffer.testBit j = false := fun j hj => by
    rw [hsel j]
    exact decide_eq_false (by omega)
  induction bufs generalizing k with
  | nil => exact absurd huri (by simp)
  | cons buf bufs ih =>
    rcases hk.eq_or_lt with rfl | hlt
    · rw [Nat.sub_self, List.getElem?_cons_zero] at huri
      obtain rfl : buf = some uri := Option.some.inj huri
      unfold checkUriLoop
      dsimp only
      by_cases hempty : uri.bytes.length = 0
      · rw [if_pos hempty, checkUriLoop_unselected extracted bufs hafter]
        exact ⟨-1, _, uniSearchReal_empty pmd _ extracted hempty, rfl, fun h => absurd h noMatch_ne,
          fun h => absurd h (xorFlag_neg _).not_gt⟩
      · obtain ⟨found, doe', hrun, -⟩ := uniSearchReal_total uri pmd (uriDoe pmd uri doe) extracted
        have hbit : pmd.uriBuffer.testBit k = true := (hsel k).trans (decide_eq_true rfl)
        have hflag : (getByteExtractValues extracted pmd).exceptionFlag = pmd.exceptionFlag := rfl
        rw [if_neg hempty, hbit, if_neg Bool.noConfusion, hrun, Option.bind_eq_bind,
          Option.bind_some]
        dsimp only
        have hrest : checkUriLoop extracted (getByteExtractValues extracted pmd) doe' (k + 1) bufs =
            some (.noMatch, getByteExtractValues extracted pmd, doe') :=
          checkUriLoop_unselected extracted bufs hafter
        rw [hflag, hrest]
        split_ifs with hpos
        · exact ⟨found, _, rfl, rfl, fun _ => hpos, fun _ => rfl⟩
        · exact ⟨found, _, rfl, rfl, fun h => absurd h noMatch_ne, fun h => absurd h hpos⟩
    · have hbit : pmd.uriBuffer.testBit k = false := (hsel k).trans (decide_eq_false hlt.ne)
      have hsub : i - k = i - (k + 1) + 1 := by omega
      rw [hsub, List.getElem?_cons_succ] at huri
      have hrest := ih hlt huri
      cases buf with
      | none => exact hrest
      | some buf =>
        rw [checkUriLoop, hbit, if_pos rfl, ite_self]
        exact hrest

/-- Two cursors, each at the same offset of its own kind of buffer. -/
theorem cursor_own (pmd : PatternMatchData) {data uri : Buffer} {doe doe' : Doe}
    (hdata : doe.doeBufFlags &&& DOE_BUF_URI = 0) (huri : doe'.doeBufFlags &&& DOE_BUF_URI ≠ 0)
    (h : doe.doePtr.map (· - data.start) = doe'.doePtr.map (· - uri.start)) :
    cursor data pmd (payloadDoe doe) - data.start = cursor uri pmd (uriDoe pmd uri doe') - uri.start := by
  have hoffset : ∀ (ptr : Option ℤ) (start : ℤ), ptr.getD start - start = (ptr.map (· - start)).getD 0 := by
    intro ptr start
    cases ptr with
    | none => exact sub_self start
    | some p => rfl
  unfold cursor payloadDoe uriDoe
  rw [if_neg (not_not.2 hdata), if_neg huri]
  split_ifs with hdoe
  · rw [hoffset, hoffset, h]
  · rw [sub_self, sub_self]

/-- **Payload and URI contents agree**: with one URI buffer selected, the same bytes as payload and the same
place of the cursor, both functions match or neither does, and neither if the search is out of bounds.  (A
content of a URI buffer has no replacement; one of the payload may, and has its place if it is not
negated.) -/
theorem checkUri_isMatch_iff (extracted : Int8 → UInt32) (pmd : PatternMatchData) (p q : Packet) (doe doe' : Doe)
    (i : ℕ) (uri : Buffer) (hsel : pmd.uriBuffer = 2 ^ i) (hi : i < q.uriCount)
    (huri : q.uriBufs[i]? = some (some uri)) (hbytes : uri.bytes = (payload pmd p).bytes)
    (hsized : (payload pmd p).Sized)
    (hcursor : cursor (payload pmd p) pmd (payloadDoe doe) - (payload pmd p).start =
      cursor uri pmd (uriDoe pmd uri doe') - uri.start)
    (hreplace : pmd.replaceBuf.isSome → p.wasCooked = false → pmd.exceptionFlag = 0) :
    ∃ found res res', (uniSearchReal extracted (payload pmd p) pmd (payloadDoe doe)).map Prod.fst = some found ∧
      (uniSearchReal extracted uri pmd (uriDoe pmd uri doe')).map Prod.fst = some found ∧
      checkANDPatternMatch extracted pmd p doe = some res ∧
      checkUriPatternMatch extracted pmd q doe' = some res' ∧
      (res'.1 = .isMatch ↔ res.1 = .isMatch) ∧
      (found = -1 → res.1 = .noMatch ∧ res'.1 = .noMatch) := by
  have hbit : ∀ j, pmd.uriBuffer.testBit j = decide (j = i) := fun j => by
    rw [hsel, Nat.testBit_two_pow]
    exact decide_eq_decide.2 eq_comm
  have htake : (q.uriBufs.take q.uriCount)[i - 0]? = some (some uri) := by
    rw [Nat.sub_zero, List.getElem?_take_of_lt hi, huri]
  obtain ⟨found, res, hsearch, hrun, hmatch⟩ := checkAND_spec extracted doe hsized hreplace
  obtain ⟨found', res', hsearch', hrun', hmatch'⟩ :=
    checkUriLoop_selected extracted doe' _ hbit (Nat.zero_le i) htake
  rw [uniSearchReal_shift extracted hsized hbytes hcursor, hsearch] at hsearch'
  obtain rfl : found = found' := Option.some.inj hsearch'
  have hneg : ∀ res : OptionResult × PatternMatchData × Doe,
      (res.1 = .isMatch ↔ 0 < xorFlag found pmd.exceptionFlag) → found = -1 → res.1 = .noMatch := by
    rintro ⟨res, _, _⟩ h herror
    rw [herror] at h
    cases res with
    | noMatch => rfl
    | isMatch => exact absurd (h.1 rfl) (xorFlag_neg _).not_gt
  refine ⟨found, res, res', hsearch, ?_, hrun, hrun', hmatch'.trans hmatch.symm, fun h =>
    ⟨hneg res hmatch h, hneg res' hmatch' h⟩⟩
  rw [uniSearchReal_shift extracted hsized hbytes hcursor, hsearch]

/-- `uricontent:"a"`, for the second buffer. -/
def uriContentA : PatternMatchData := { contentA with uriBuffer := 2 }

/-- A packet with the same two bytes as payload and in the second URI buffer. -/
def twiceAB : Packet := ⟨100, [97, 98], 2, false, false, none, none, 2, [none, some ⟨500, [97, 98]⟩]⟩

theorem checkUri_isMatch_iff_contentA : ∃ found res res',
    (uniSearchReal (fun _ => 0) (payload uriContentA twiceAB) uriContentA
      (payloadDoe ⟨none, DOE_BUF_STD⟩)).map Prod.fst = some found ∧
    (uniSearchReal (fun _ => 0) ⟨500, [97, 98]⟩ uriContentA
      (uriDoe uriContentA ⟨500, [97, 98]⟩ ⟨none, DOE_BUF_STD⟩)).map Prod.fst = some found ∧
    checkANDPatternMatch (fun _ => 0) uriContentA twiceAB ⟨none, DOE_BUF_STD⟩ = some res ∧
    checkUriPatternMatch (fun _ => 0) uriContentA twiceAB ⟨none, DOE_BUF_STD⟩ = some res' ∧
    (res'.1 = .isMatch ↔ res.1 = .isMatch) ∧
    (found = -1 → res.1 = .noMatch ∧ res'.1 = .noMatch) :=
  checkUri_isMatch_iff (fun _ => 0) uriContentA twiceAB twiceAB ⟨none, DOE_BUF_STD⟩ ⟨none, DOE_BUF_STD⟩ 1
    ⟨500, [97, 98]⟩ rfl (by decide) rfl rfl (by unfold Buffer.Sized; decide) rfl fun h => absurd h (by decide)

end Options

end Snort.Pattern
