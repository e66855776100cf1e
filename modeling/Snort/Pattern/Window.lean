import Snort.Mstring.Search
import Snort.Pattern.Model

/-!
# The window of a content

* `searchBase_eq`: the base, and what is left of the buffer behind it;
* `finalDepth_eq`: the end of the window;
* **`uniSearchReal_spec`**: the search finds the first occurrence in the window;
* **`uniSearchReal_eq_one_iff`**: it reads in the buffer only, and answers 1 when there is one.
-/

namespace Snort.Pattern

open BoyerMoore CInt Mstring

/-! ### The window -/

section Window

variable (data : Buffer) (pmd : PatternMatchData)

/-- Where the search is relative to: the cursor, or the start of the buffer. -/
def cursor (doe : Doe) : ℤ := if pmd.useDoe then doe.doePtr.getD data.start else data.start

/-- The cursor plus the distance, or plus the offset. -/
def base (doe : Doe) : ℤ :=
  cursor data pmd doe + if pmd.distance ≠ 0 then pmd.distance.toInt else pmd.offset.toInt

/-- An address lies in the buffer. -/
def Buffer.Inside (p : ℤ) : Prop := data.start ≤ p ∧ p < data.stop

/-- The pattern, standing at an address, is in the window behind the base. -/
structure InWindow (base p : ℤ) : Prop where
  base_le : base ≤ p
  stop : p + pmd.patternSize ≤ data.stop
  within : pmd.within ≠ 0 → p + pmd.patternSize ≤ base + pmd.within.toNat
  depth : 0 < pmd.depth.toInt → p + pmd.patternSize ≤ base + pmd.depth.toInt

/-- The pattern stands at an address. -/
def OccursAt (p : ℤ) : Prop :=
  ∃ k : ℕ, p = data.start + k ∧ Occurs pmd.patternBuf (data.bytes.map pmd.fold) k

/-- A cursor that is `NULL`, or an address of the buffer or its end. -/
def CursorIn (doe : Doe) : Prop := ∀ p, doe.doePtr = some p → data.start ≤ p ∧ p ≤ data.stop

end Window

/-- The buffer has a size that is an `int`. -/
def Buffer.Sized (data : Buffer) : Prop := data.bytes.length < 2 ^ 31

section Depth

variable {data : Buffer} {pmd : PatternMatchData} {doe : Doe}

theorem PatternMatchData.patternBuf_ne_nil (pmd : PatternMatchData) : pmd.patternBuf ≠ [] := by
  intro hnil
  have h := pmd.shift_eq
  rw [hnil] at h
  exact Option.some_ne_none _ h.symm

theorem PatternMatchData.patternSize_pos (pmd : PatternMatchData) : 0 < pmd.patternSize :=
  List.length_pos_of_ne_nil pmd.patternBuf_ne_nil

theorem cursor_eq : cursor data pmd doe = (startDoe pmd doe).doePtr.getD data.start := by
  unfold cursor startDoe
  split_ifs <;> rfl

variable (pmd) in
theorem cursor_inside (hdoe : CursorIn data doe) :
    data.start ≤ cursor data pmd doe ∧ cursor data pmd doe ≤ data.stop := by
  have hnull : data.start ≤ data.stop := by unfold Buffer.stop; omega
  unfold cursor
  split_ifs
  · cases hptr : doe.doePtr with
    | none => exact ⟨le_rfl, hnull⟩
    | some p => exact hdoe p hptr
  · exact ⟨le_rfl, hnull⟩

variable (pmd) in
/-- What is left of the buffer behind the base, if the base is in the buffer. -/
theorem searchBase_eq (hdoe : CursorIn data doe) (hlen : data.Sized) :
    (searchBase data pmd (startDoe pmd doe).doePtr).1 = base data pmd doe ∧
      (data.Inside (base data pmd doe) →
        (searchBase data pmd (startDoe pmd doe).doePtr).2 =
          if pmd.within ≠ 0 then computeWithin (data.stop - base data pmd doe) pmd
          else data.stop - base data pmd doe) := by
  have hcursor := cursor_inside pmd hdoe
  have hstop : data.stop = data.start + data.bytes.length := rfl
  have hsize : data.bytes.length < 2 ^ 31 := hlen
  -- the depth behind the cursor
  have hdepth : i32 (data.stop - cursor data pmd doe) = data.stop - cursor data pmd doe :=
    i32_of_range (by omega) (by omega)
  have hfirst : startPoint data (startDoe pmd doe).doePtr =
      (cursor data pmd doe, data.stop - cursor data pmd doe) := by
    rw [cursor_eq] at hdepth ⊢
    cases hptr : (startDoe pmd doe).doePtr with
    | none => exact Prod.ext rfl (show (data.bytes.length : ℤ) = data.stop - data.start by omega)
    | some p =>
      rw [hptr, Option.getD_some] at hdepth
      refine Prod.ext rfl ?_
      show i32 (data.bytes.length - (p - data.start)) = data.stop - p
      rw [← hdepth, hstop]
      congr 1
      ring
  unfold searchBase
  dsimp only
  rw [hfirst]
  unfold base
  dsimp only
  split_ifs with hdist hwithin hwithin <;> refine ⟨rfl, fun hin => ?_⟩ <;> dsimp only
  all_goals
    obtain ⟨hle, hlt⟩ := hin
    rw [i32_of_range (by omega) (by omega), sub_add_eq_sub_sub]

variable (pmd) in
/-- The depth behind the tests for `within`, where `d` bytes are left behind the base. -/
theorem depth_spec {d dw : ℤ} (hd : 0 < d) (hlt : d < 2 ^ 31)
    (hdw : dw = if pmd.within ≠ 0 then computeWithin d pmd else d) :
    (dw < 0 ∧ d < pmd.patternSize) ∨
      (0 < dw ∧ dw ≤ d ∧ ∀ e, e ≤ dw ↔ e ≤ d ∧ (pmd.within ≠ 0 → e ≤ pmd.within.toNat)) := by
  have hsize : pmd.patternSize < 2 ^ 31 := pmd.size_lt
  have hu32 : (u32 d : ℤ) = d := by unfold u32; omega
  by_cases hwithin : pmd.within = 0
  · rw [if_neg (not_not.2 hwithin)] at hdw
    subst hdw
    exact Or.inr ⟨hd, le_rfl, fun e => ⟨fun h => ⟨h, fun h' => absurd hwithin h'⟩, And.left⟩⟩
  · have hpos : 0 < pmd.within.toNat := by
      refine Nat.pos_of_ne_zero fun hzero => hwithin ?_
      exact UInt32.toNat_inj.1 hzero
    rw [if_pos hwithin, computeWithin, i32_of_range (x := pmd.patternSize) (by omega) (by omega)] at hdw
    by_cases hfar : u32 d < pmd.within.toNat
    · rw [if_pos hfar] at hdw
      by_cases hfit : (pmd.patternSize : ℤ) ≤ d
      · rw [if_pos hfit] at hdw
        exact Or.inr ⟨by omega, by omega, fun e => ⟨fun h => ⟨by omega, fun _ => by omega⟩, fun h => by omega⟩⟩
      · rw [if_neg hfit] at hdw
        exact Or.inl ⟨by omega, by omega⟩
    · rw [if_neg hfar, i32_of_range (by omega) (by omega)] at hdw
      exact Or.inr ⟨by omega, by omega, fun e =>
        ⟨fun h => ⟨by omega, fun _ => by omega⟩, fun h => (h.2 hwithin).trans hdw.ge⟩⟩

/-- The end of the window: what `within` leaves of the rest of the buffer, cut by `depth`. -/
theorem inWindow_iff {b d dw final : ℤ} (hd : b + d = data.stop)
    (hends : ∀ e, e ≤ dw ↔ e ≤ d ∧ (pmd.within ≠ 0 → e ≤ pmd.within.toNat))
    (hfinal : (if 0 < pmd.depth.toInt ∧ pmd.depth.toInt < dw then pmd.depth.toInt else dw) = final) (p : ℤ) :
    InWindow data pmd b p ↔ b ≤ p ∧ p + pmd.patternSize ≤ b + final := by
  have hend := hends (p + pmd.patternSize - b)
  constructor
  · intro h
    have hstop := h.stop
    have hdw := hend.2 ⟨by omega, fun hw => by have := h.within hw; omega⟩
    refine ⟨h.base_le, ?_⟩
    rw [← hfinal]
    split_ifs with hcut
    · exact h.depth hcut.1
    · omega
  · rintro ⟨hbp, hp⟩
    have hdw : p + pmd.patternSize - b ≤ dw := by
      rw [← hfinal] at hp
      split_ifs at hp <;> omega
    obtain ⟨hrest, hwithin⟩ := hend.1 hdw
    refine ⟨hbp, by omega, fun hne => by have := hwithin hne; omega, fun hpos => ?_⟩
    rw [← hfinal] at hp
    split_ifs at hp <;> omega

end Depth

/-! ### The search in the window -/

section Search

variable {data : Buffer} {pmd : PatternMatchData} {doe : Doe} {b d : ℤ}

/-- The first place of the pattern from an address on that ends within a depth. -/
structure FirstIn (data : Buffer) (pmd : PatternMatchData) (P : ℤ → Prop) (p : ℤ) : Prop where
  inside : P p
  occurs : OccursAt data pmd p
  first : ∀ q < p, P q → ¬OccursAt data pmd q

/-- The tables of the pattern data are those of its pattern. -/
theorem search_finds (pmd : PatternMatchData) (buf : List Byte) :
    ∃ r, callSearch pmd buf = some r ∧ Finds pmd.patternBuf (buf.map pmd.fold) r := by
  have hne := pmd.patternBuf_ne_nil
  have hskip := makeSkip_table hne
  obtain ⟨shift, hshift, htable⟩ := makeShift_table hne
  obtain rfl : pmd.shiftStride = shift := Option.some.inj (pmd.shift_eq.symm.trans hshift)
  rw [← pmd.skip_eq] at hskip
  have hwith := searchWith_finds pmd.fold buf hne hskip htable
  unfold PatternMatchData.fold at hwith ⊢
  unfold callSearch
  split_ifs at hwith ⊢
  · exact hwith
  · exact hwith

/-- The places in the region that the searches are given. -/
theorem occurs_regionAt (hb : data.start ≤ b) (hd : 0 ≤ d) (i : ℕ) :
    Occurs pmd.patternBuf
        ((((data.bytes.drop (b - data.start).toNat).take d.toNat)).map pmd.fold) i ↔
      OccursAt data pmd (b + i) ∧ b + i + pmd.patternSize ≤ b + d := by
  rw [List.map_take, List.map_drop, occurs_region pmd.patternBuf_ne_nil]
  refine and_congr ⟨fun h => ⟨_, by omega, h⟩, ?_⟩ ?_
  · rintro ⟨k, hk, h⟩
    rwa [show (b - data.start).toNat + i = k by omega]
  · show i + pmd.patternSize ≤ d.toNat ↔ _
    omega

variable (pmd doe) in
/-- The call of the searches. -/
theorem searchRegion_spec (hb : data.start ≤ b) (hd : 0 ≤ d) (hstop : b + d ≤ data.stop) :
    ∃ r doe', searchRegion data pmd doe b d = some (r, pmd, doe') ∧
      ((r = 1 ∧ ∃ p, FirstIn data pmd (fun p => b ≤ p ∧ p + pmd.patternSize ≤ b + d) p ∧
          doe' = doe.updateDoePtr (some (p + pmd.patternSize))) ∨
        (r = 0 ∧ doe' = doe ∧ ∀ p, b ≤ p ∧ p + pmd.patternSize ≤ b + d → ¬OccursAt data pmd p)) := by
  obtain ⟨⟨success, found⟩, hsearch, hfinds⟩ :=
    search_finds pmd ((data.bytes.drop (b - data.start).toNat).take d.toNat)
  have hregion : data.region b d = some ((data.bytes.drop (b - data.start).toNat).take d.toNat) :=
    if_pos ⟨hb, hd, hstop⟩
  have hrun : searchRegion data pmd doe b d =
      some (if success then 1 else 0, pmd, doe.behind b found) := by
    unfold searchRegion
    rw [hregion, Option.bind_eq_bind, Option.bind_some, hsearch, Option.bind_eq_bind, Option.bind_some]
  -- every place of the region is a place behind the base
  have hoffset : ∀ p, b ≤ p → ∃ i : ℕ, p = b + i := fun p hp => ⟨(p - b).toNat, by omega⟩
  refine ⟨_, _, hrun, ?_⟩
  cases success with
  | true =>
    obtain ⟨i, hi⟩ := hfinds.answer.1 rfl
    obtain ⟨j, hj⟩ := hi.exists_firstAt
    obtain rfl : found = some (j + pmd.patternBuf.length) := (hfinds.doe _).2 ⟨j, hj, rfl⟩
    obtain ⟨hat, hend⟩ := (occurs_regionAt hb hd j).1 hj.occurs
    refine Or.inl ⟨rfl, b + j, ⟨⟨by omega, hend⟩, hat, ?_⟩, ?_⟩
    · rintro q hq ⟨hbq, hqend⟩ hqat
      obtain ⟨k, rfl⟩ := hoffset q hbq
      exact hj.first k (by omega) ((occurs_regionAt hb hd k).2 ⟨hqat, hqend⟩)
    · rw [Doe.behind, Nat.cast_add, ← add_assoc]
      rfl
  | false =>
    obtain rfl : found = none := by
      cases hfound : found with
      | none => rfl
      | some p =>
        obtain ⟨j, hj, -⟩ := (hfinds.doe p).1 hfound
        exact absurd (hfinds.answer.2 ⟨j, hj.occurs⟩) Bool.false_ne_true
    refine Or.inr ⟨rfl, rfl, ?_⟩
    rintro p ⟨hbp, hpend⟩ hpat
    obtain ⟨k, rfl⟩ := hoffset p hbp
    exact absurd (hfinds.answer.2 ⟨k, (occurs_regionAt hb hd k).2 ⟨hpat, hpend⟩⟩) Bool.false_ne_true

variable (pmd) in
/-- **The search in the window.** -/
theorem uniSearchReal_spec (extracted : Int8 → UInt32) (hlen : data.Sized) (hdoe : CursorIn data doe) :
    ∃ r doe', uniSearchReal extracted data pmd doe = some (r, getByteExtractValues extracted pmd, doe') ∧
      ((r = 1 ∧ data.Inside (base data (getByteExtractValues extracted pmd) doe) ∧
          ∃ p, FirstIn data (getByteExtractValues extracted pmd)
            (InWindow data (getByteExtractValues extracted pmd)
              (base data (getByteExtractValues extracted pmd) doe)) p ∧
            doe' = (startDoe pmd doe).updateDoePtr (some (p + pmd.patternSize))) ∨
        ((r = 0 ∨ r = -1) ∧ doe' = startDoe pmd doe ∧
          (data.Inside (base data (getByteExtractValues extracted pmd) doe) →
            ∀ p, InWindow data (getByteExtractValues extracted pmd)
                (base data (getByteExtractValues extracted pmd) doe) p →
              ¬OccursAt data (getByteExtractValues extracted pmd) p) ∧
          (¬data.Inside (base data (getByteExtractValues extracted pmd) doe) → r = -1))) := by
  generalize hpmd : getByteExtractValues extracted pmd = pmd'
  have hstart : startDoe pmd doe = startDoe pmd' doe := by rw [← hpmd]; rfl
  have hsize : pmd.patternSize = pmd'.patternSize := by rw [← hpmd]; rfl
  rw [hstart, hsize]
  obtain ⟨hbase, hdepth⟩ := searchBase_eq pmd' hdoe hlen
  have hlen' : data.bytes.length < 2 ^ 31 := hlen
  have hstop : data.stop = data.start + data.bytes.length := rfl
  unfold uniSearchReal
  dsimp only
  rw [hpmd, hstart, hbase]
  by_cases hin : data.Inside (base data pmd' doe)
  · obtain ⟨hle, hlt⟩ := id hin
    have hbounds : inBounds data.start data.stop (base data pmd' doe) = true := decide_eq_true hin
    rw [hbounds, if_neg (not_not.2 rfl)]
    rcases depth_spec pmd' (show 0 < data.stop - base data pmd' doe by omega) (by omega)
      (hdepth hin) with ⟨hneg, hshort⟩ | ⟨hpos, hfit, hends⟩
    · rw [if_pos hneg]
      refine ⟨-1, _, rfl, Or.inr ⟨Or.inr rfl, rfl, fun _ p hp _ => ?_, fun _ => rfl⟩⟩
      have := hp.base_le
      have := hp.stop
      omega
    · rw [if_neg (not_lt.2 hpos.le)]
      generalize hfinal : cutDepth data.bytes.length pmd'
        (searchBase data pmd' (startDoe pmd' doe).doePtr).2 = final
      rw [cutDepth, if_neg (show ¬((data.bytes.length : ℤ) < _) by omega)] at hfinal
      have hwindow := inWindow_iff (b := base data pmd' doe) (add_sub_cancel _ data.stop) hends hfinal
      have hfinal_pos : 0 < final := by
        rw [← hfinal]
        split_ifs <;> omega
      have hfinal_le : base data pmd' doe + final ≤ data.stop := by
        rw [← hfinal]
        split_ifs <;> omega
      have hlast : inBounds data.start data.stop (base data pmd' doe + final - 1) = true :=
        decide_eq_true ⟨by omega, by omega⟩
      rw [hlast, if_neg (not_not.2 rfl)]
      obtain ⟨r, doe', hrun, hresult⟩ :=
        searchRegion_spec pmd' (startDoe pmd' doe) hle hfinal_pos.le hfinal_le
      refine ⟨r, doe', hrun, ?_⟩
      rcases hresult with ⟨hr, p, hfirst, hdoe'⟩ | ⟨hr, hdoe', hnone⟩
      · exact Or.inl ⟨hr, hin, p, ⟨(hwindow p).2 hfirst.inside, hfirst.occurs,
          fun q hq hwin => hfirst.first q hq ((hwindow q).1 hwin)⟩, hdoe'⟩
      · exact Or.inr ⟨Or.inl hr, hdoe', fun _ p hwin => hnone p ((hwindow p).1 hwin), fun h => absurd hin h⟩
  · have hbounds : inBounds data.start data.stop (base data pmd' doe) = false := decide_eq_false hin
    rw [hbounds, if_pos Bool.false_ne_true]
    exact ⟨-1, _, rfl, Or.inr ⟨Or.inr rfl, rfl, fun h => absurd h hin, fun _ => rfl⟩⟩

end Search

/-- **The window**: with the values of the variables, the search is given a region of the buffer, and where
the base lies in the buffer it answers 1 just when the pattern stands in the window. -/
theorem uniSearchReal_eq_one_iff (extracted : Int8 → UInt32) (data : Buffer) (pmd : PatternMatchData) (doe : Doe)
    (hlen : data.Sized) (hdoe : CursorIn data doe) :
    ∃ r pmd' doe', uniSearchReal extracted data pmd doe = some (r, pmd', doe') ∧
      pmd' = getByteExtractValues extracted pmd ∧
      (data.Inside (base data pmd' doe) →
        (r = 1 ↔ ∃ p, InWindow data pmd' (base data pmd' doe) p ∧ OccursAt data pmd' p)) ∧
      (¬data.Inside (base data pmd' doe) → r = -1) := by
  obtain ⟨r, doe', hrun, hresult⟩ := uniSearchReal_spec pmd extracted hlen hdoe
  refine ⟨r, _, doe', hrun, rfl, fun hin => ?_, fun hout => ?_⟩
  · rcases hresult with ⟨hr, -, p, hfirst, -⟩ | ⟨hr, -, hnone, -⟩
    · exact ⟨fun _ => ⟨p, hfirst.inside, hfirst.occurs⟩, fun _ => hr⟩
    · refine ⟨fun h => by omega, ?_⟩
      rintro ⟨p, hwin, hat⟩
      exact absurd hat (hnone hin p hwin)
  · rcases hresult with ⟨-, hin, -⟩ | ⟨-, -, -, hout'⟩
    · exact absurd hin hout
    · exact hout' hout

/-- `content:"a"`. -/
def contentA : PatternMatchData where
  offset := 0
  depth := 0
  distance := 0
  within := 0
  offsetVar := -1
  depthVar := -1
  distanceVar := -1
  withinVar := -1
  rawbytes := false
  useDoe := false
  nocase := false
  uriBuffer := 0
  exceptionFlag := 0
  replaceBuf := none
  replaceDepth := -1
  patternBuf := [97]
  skipStride := makeSkip [97]
  shiftStride := Function.update (fun _ => 0) 0 1
  patternMaxJumpSize := 1
  skip_eq := rfl
  shift_eq := rfl
  size_lt := by decide

theorem uniSearchReal_eq_one_iff_contentA :
    Buffer.Sized ⟨0, [98, 97]⟩ ∧ CursorIn ⟨0, [98, 97]⟩ ⟨none, DOE_BUF_STD⟩ ∧
    ∃ r pmd' doe', uniSearchReal (fun _ => 0) ⟨0, [98, 97]⟩ contentA ⟨none, DOE_BUF_STD⟩ =
        some (r, pmd', doe') ∧
      pmd' = getByteExtractValues (fun _ => 0) contentA ∧
      (Buffer.Inside ⟨0, [98, 97]⟩ (base ⟨0, [98, 97]⟩ pmd' ⟨none, DOE_BUF_STD⟩) →
        (r = 1 ↔ ∃ p, InWindow ⟨0, [98, 97]⟩ pmd' (base ⟨0, [98, 97]⟩ pmd' ⟨none, DOE_BUF_STD⟩) p ∧
          OccursAt ⟨0, [98, 97]⟩ pmd' p)) ∧
      (¬Buffer.Inside ⟨0, [98, 97]⟩ (base ⟨0, [98, 97]⟩ pmd' ⟨none, DOE_BUF_STD⟩) → r = -1) := by
  have hlen : Buffer.Sized ⟨0, [98, 97]⟩ := by unfold Buffer.Sized; decide
  have hdoe : CursorIn ⟨0, [98, 97]⟩ ⟨none, DOE_BUF_STD⟩ := fun p hp => absurd hp.symm (Option.some_ne_none p)
  exact ⟨hlen, hdoe, uniSearchReal_eq_one_iff (fun _ => 0) ⟨0, [98, 97]⟩ contentA ⟨none, DOE_BUF_STD⟩ hlen hdoe⟩

end Snort.Pattern
