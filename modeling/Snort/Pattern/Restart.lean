import Snort.Pattern.Window

/-!
# Searching again behind a match

* `RunStart`: the characters at which `GetMaxJumpSize` starts to compare anew;
* `RunStart.jump_eq`, `getMaxJumpSize_cases`: what it returns;
* `Spelled`: a pattern as it is written, and as it is searched;
* **`noSkip_iff`**: no match is skipped.

* `Windowed`: a window by offset and depth, or by distance and within;
* `adjust_none`, `adjust_some`: the pattern data to search again with have the rest of the window;
* `contentLoop_spec`: a run of the loop;
* **`restart_iff`**: for which patterns all matches are found.
-/

namespace Snort.Pattern

open BoyerMoore Mstring

/-! ### `GetMaxJumpSize` -/

/-- The pattern is compared with itself in runs, the first from its second character; a run ends with a
character that differs, and the next one starts behind that character. -/
inductive RunStart (data : List Byte) : ℕ → Prop
  | first : RunStart data 1
  | next {s k : ℕ} : RunStart data s → s + k < data.length → (∀ m < k, data[m]? = data[s + m]?) →
      data[k]? ≠ data[s + k]? → RunStart data (s + k + 1)

section Runs

variable {data : List Byte} {s j k : ℕ}

/-- Characters that are equal. -/
theorem getMaxJumpLoop_equal (hjk : j ≤ k) (hlt : s + k < data.length)
    (hequal : ∀ m < k, data[m]? = data[s + m]?) :
    getMaxJumpLoop data (data.length - (s + j)) (s + j) j =
      getMaxJumpLoop data (data.length - (s + k)) (s + k) k := by
  induction k, hjk using Nat.le_induction with
  | base => rfl
  | succ k hjk ih =>
    have hleft : data.length - (s + k) = data.length - (s + (k + 1)) + 1 := by omega
    rw [ih (by omega) fun m hm => hequal m (by omega), hleft, getMaxJumpLoop,
      if_neg (not_not.2 (hequal k (by omega))), if_neg (by omega), Nat.add_assoc]

/-- A character that differs. -/
theorem getMaxJumpLoop_differ (hlt : s + k < data.length) (hne : data[k]? ≠ data[s + k]?) :
    getMaxJumpLoop data (data.length - (s + k)) (s + k) k =
      getMaxJumpLoop data (data.length - (s + k + 1)) (s + k + 1) 0 := by
  have hleft : data.length - (s + k) = data.length - (s + k + 1) + 1 := by omega
  rw [hleft, getMaxJumpLoop, if_pos hne]

/-- A run that goes on to the end. -/
theorem getMaxJumpLoop_overlap (h : Overlap data s) : getMaxJumpLoop data (data.length - s) s 0 = s := by
  have hlt := h.lt
  have hequal : ∀ m, s + m < data.length → data[m]? = data[s + m]? := fun m hm => (h.get m hm).symm
  obtain ⟨k, hk⟩ : ∃ k, s + k = data.length - 1 := ⟨data.length - 1 - s, by omega⟩
  have hrun := getMaxJumpLoop_equal (s := s) (Nat.zero_le k) (by omega) fun m hm => hequal m (by omega)
  have hleft : data.length - (s + k) = 0 + 1 := by omega
  rw [Nat.add_zero] at hrun
  rw [hrun, hleft, getMaxJumpLoop, if_neg (not_not.2 (hequal k (by omega))), if_pos hk]
  omega

/-- The loop comes to every start of a run. -/
theorem RunStart.loop_eq (h : RunStart data s) :
    getMaxJumpSize data = getMaxJumpLoop data (data.length - s) s 0 := by
  induction h with
  | first => rfl
  | next _ hlt hequal hne ih =>
    have hrun := getMaxJumpLoop_equal (Nat.zero_le _) hlt hequal
    rw [Nat.add_zero] at hrun
    rw [ih, hrun, getMaxJumpLoop_differ hlt hne]

/-- **A run that goes on to the end** gives the jump. -/
theorem RunStart.jump_eq (h : RunStart data s) (hoverlap : Overlap data s) : getMaxJumpSize data = s :=
  h.loop_eq.trans (getMaxJumpLoop_overlap hoverlap)

theorem getMaxJumpLoop_cases {left : ℕ} (hs : RunStart data s) (hleft : s + j + left = data.length)
    (hequal : ∀ m < j, data[m]? = data[s + m]?) :
    getMaxJumpLoop data left (s + j) j = data.length ∨
      (RunStart data (getMaxJumpLoop data left (s + j) j) ∧
        Overlap data (getMaxJumpLoop data left (s + j) j)) := by
  induction left generalizing s j with
  | zero => exact Or.inl rfl
  | succ left ih =>
    rw [getMaxJumpLoop]
    by_cases hne : data[j]? ≠ data[s + j]?
    · rw [if_pos hne]
      exact ih (hs.next (by omega) hequal hne) (by omega) fun m hm => absurd hm (Nat.not_lt_zero m)
    · rw [if_neg hne]
      have hequal' : ∀ m < j + 1, data[m]? = data[s + m]? := fun m hm => by
        rcases Nat.lt_succ_iff_lt_or_eq.1 hm with hlt | rfl
        · exact hequal m hlt
        · exact not_not.1 hne
      by_cases hend : s + j = data.length - 1
      · rw [if_pos hend, show data.length - j - 1 = s by omega]
        have hpos : 0 < s := by
          cases hs with
          | first => exact Nat.one_pos
          | next _ _ _ _ => exact Nat.succ_pos _
        exact Or.inr ⟨hs, hpos, by omega, fun m hm => (hequal' m (by omega)).symm⟩
      · rw [if_neg hend]
        exact ih hs (by omega) hequal'

/-- The jump is the length of the pattern, or where a run starts that goes on to the end. -/
theorem getMaxJumpSize_cases (data : List Byte) :
    getMaxJumpSize data = data.length ∨
      (RunStart data (getMaxJumpSize data) ∧ Overlap data (getMaxJumpSize data)) := by
  by_cases hempty : data.length = 0
  · rw [List.length_eq_zero_iff] at hempty
    subst hempty
    exact Or.inl rfl
  · exact getMaxJumpLoop_cases (j := 0) RunStart.first (by omega) fun m hm => absurd hm (Nat.not_lt_zero m)

theorem getMaxJumpSize_le (data : List Byte) : getMaxJumpSize data ≤ data.length := by
  rcases getMaxJumpSize_cases data with h | ⟨-, h⟩
  · exact h.le
  · exact h.lt.le

theorem getMaxJumpSize_pos (hne : data ≠ []) : 0 < getMaxJumpSize data := by
  rcases getMaxJumpSize_cases data with h | ⟨-, h⟩
  · rw [h]
    exact List.length_pos_of_ne_nil hne
  · exact h.pos

end Runs

/-! ### The pattern that is searched -/

/-- The pattern as it is searched: upper-cased by `nocase`. -/
def searched (nocase : Bool) (raw : List Byte) : List Byte := if nocase then raw.map toupper else raw

/-- What the search does to the bytes of the buffer. -/
def folded (nocase : Bool) : Byte → Byte := if nocase then toupper else id

section Skip

variable {nocase : Bool} {raw : List Byte} {q : ℕ}

theorem toupper_toupper (b : Byte) : toupper (toupper b) = toupper b := by
  revert b
  decide +kernel

theorem searched_eq : searched nocase raw = raw.map (folded nocase) := by
  cases nocase with
  | true => rfl
  | false => exact (List.map_id raw).symm

theorem searched_length : (searched nocase raw).length = raw.length := by
  rw [searched_eq, List.length_map]

theorem searched_folded : (searched nocase raw).map (folded nocase) = searched nocase raw := by
  rw [searched_eq, List.map_map]
  refine List.map_congr_left fun b _ => ?_
  cases nocase with
  | true => exact toupper_toupper b
  | false => rfl

variable (nocase raw) in
/-- Behind a match at `i`, no match starts before the jump. -/
def NoSkip : Prop :=
  ∀ (buf : List Byte) (i j : ℕ), Occurs (searched nocase raw) (buf.map (folded nocase)) i →
    Occurs (searched nocase raw) (buf.map (folded nocase)) j → i < j → i + getMaxJumpSize raw ≤ j

variable (nocase raw) in
/-- The pattern, as it is searched, does not overlap itself; or its first overlap is there in the pattern as
it is written, and a run starts at it. -/
def JumpsRight : Prop :=
  (∀ q, ¬Overlap (searched nocase raw) q) ∨
    ∃ q, IsLeast {q | Overlap (searched nocase raw) q} q ∧ Overlap raw q ∧ RunStart raw q

/-- The jump is at most the first overlap. -/
theorem noSkip_iff_le : NoSkip nocase raw ↔ ∀ q, Overlap (searched nocase raw) q → getMaxJumpSize raw ≤ q := by
  constructor
  · intro h q hq
    have hoccurs := hq.occurs
    have htext : ((searched nocase raw).take q ++ searched nocase raw).map (folded nocase) =
        (searched nocase raw).take q ++ searched nocase raw := by
      rw [List.map_append, List.map_take, searched_folded]
    rw [← htext] at hoccurs
    have hle := h _ 0 q hoccurs.1 hoccurs.2 hq.pos
    rwa [Nat.zero_add] at hle
  · intro h buf i j hi hj hlt
    by_contra hskip
    have hle := getMaxJumpSize_le raw
    have hoverlap := hi.overlap hj hlt (by rw [searched_length]; omega)
    have := h _ hoverlap
    omega

/-- **No match is skipped** just for these patterns. -/
theorem noSkip_iff : NoSkip nocase raw ↔ JumpsRight nocase raw := by
  rw [noSkip_iff_le]
  constructor
  · intro h
    by_cases hnone : ∀ q, ¬Overlap (searched nocase raw) q
    · exact Or.inl hnone
    · have hsome := not_forall_not.1 hnone
      obtain ⟨q, hleast⟩ : ∃ q, IsLeast {q | Overlap (searched nocase raw) q} q := by
        classical
        exact ⟨Nat.find hsome, Nat.find_spec hsome, fun m hm => Nat.find_le hm⟩
      have hlt := hleast.1.lt
      rw [searched_length] at hlt
      have hle := h q hleast.1
      rcases getMaxJumpSize_cases raw with hlen | ⟨hstart, hoverlap⟩
      · omega
      · have hover : Overlap (searched nocase raw) (getMaxJumpSize raw) := by
          rw [searched_eq]
          exact hoverlap.map _
        obtain rfl : getMaxJumpSize raw = q := le_antisymm hle (hleast.2 hover)
        exact Or.inr ⟨_, hleast, hoverlap, hstart⟩
  · rintro (hnone | ⟨q, hleast, hoverlap, hstart⟩) q' hq'
    · exact absurd hq' (hnone q')
    · rw [hstart.jump_eq hoverlap]
      exact hleast.2 hq'

end Skip

/-! ## Searching again behind a match -/

open BoyerMoore CInt Mstring

/-- The pattern data have no variables, and the offset and depth of a content that is not relative, or the
distance and within of a relative one. -/
structure Windowed (pmd : PatternMatchData) : Prop where
  offsetVar : pmd.offsetVar = -1
  depthVar : pmd.depthVar = -1
  distanceVar : pmd.distanceVar = -1
  withinVar : pmd.withinVar = -1
  depth_nonneg : 0 ≤ pmd.depth.toInt
  window : if pmd.useDoe then pmd.offset = 0 ∧ pmd.depth = 0 else pmd.distance = 0 ∧ pmd.within = 0

/-- `ParsePattern`, and the `nocase` option behind it. -/
structure Written (nocase : Bool) (raw : List Byte) (pmd : PatternMatchData) : Prop where
  nocase_eq : pmd.nocase = nocase
  pattern_eq : pmd.patternBuf = searched nocase raw
  jump_eq : pmd.patternMaxJumpSize = getMaxJumpSize raw

section Window

variable {data : Buffer} {pmd : PatternMatchData} {doe : Doe}

theorem Windowed.values (h : Windowed pmd) (extracted : Int8 → UInt32) :
    getByteExtractValues extracted pmd = pmd := by
  have hold : ∀ {α : Type} (conv : UInt32 → α) (old : α),
      getByteExtractValue extracted (-1) conv old = old := fun conv old => if_neg (by decide)
  unfold getByteExtractValues
  rw [h.offsetVar, h.depthVar, h.distanceVar, h.withinVar, hold, hold, hold, hold, ← h.offsetVar]
  obtain ⟨hoffset, hdepth, hdistance, hwithin, -, -⟩ := h
  cases pmd
  dsimp only at hoffset hdepth hdistance hwithin
  subst hoffset hdepth hdistance hwithin
  rfl

theorem Windowed.base_eq (h : Windowed pmd) : base data pmd doe =
    cursor data pmd doe + if pmd.useDoe then pmd.distance.toInt else pmd.offset.toInt := by
  have hwindow := h.window
  unfold base
  split_ifs at hwindow ⊢ with hdist hdoe hdoe
  · rfl
  · exact absurd hwindow.1 hdist
  · rw [hwindow.1, not_not.1 hdist]
  · rfl

theorem inWindow_def {b p : ℤ} : InWindow data pmd b p ↔ b ≤ p ∧ p + pmd.patternSize ≤ data.stop ∧
    (pmd.within ≠ 0 → p + pmd.patternSize ≤ b + pmd.within.toNat) ∧
    (0 < pmd.depth.toInt → p + pmd.patternSize ≤ b + pmd.depth.toInt) :=
  ⟨fun h => ⟨h.base_le, h.stop, h.within, h.depth⟩, fun h => ⟨h.1, h.2.1, h.2.2.1, h.2.2.2⟩⟩

end Window

/-! ### `PatternMatchAdjustRelativeOffsets` -/

/-- The pattern data have what is left of the window behind a base. -/
structure Rest (data : Buffer) (doe : Doe) (nocase : Bool) (raw : List Byte) (orig dup : PatternMatchData) :
    Prop where
  windowed : Windowed dup
  written : Written nocase raw dup
  useDoe_eq : dup.useDoe = orig.useDoe
  depth_iff : dup.depth = 0 ↔ orig.depth = 0
  within_iff : dup.within = 0 ↔ orig.within = 0
  base_le : base data orig doe ≤ base data dup doe
  window : ∀ q, InWindow data dup (base data dup doe) q ↔
    base data dup doe ≤ q ∧ InWindow data orig (base data orig doe) q

section Adjust

variable {data : Buffer} {doe : Doe} {nocase : Bool} {raw : List Byte} {orig dup dup' : PatternMatchData} {p : ℤ}

theorem Rest.refl (hwindowed : Windowed orig) (hwritten : Written nocase raw orig) :
    Rest data doe nocase raw orig orig :=
  ⟨hwindowed, hwritten, rfl, Iff.rfl, Iff.rfl, le_rfl, fun _ => ⟨fun h => ⟨h.base_le, h⟩, And.right⟩⟩

/-- Pattern data with another place to search from and the same end of the window. -/
structure Moved (data : Buffer) (doe : Doe) (dup dup' : PatternMatchData) (start : ℤ) : Prop where
  offsetVar : dup'.offsetVar = dup.offsetVar
  depthVar : dup'.depthVar = dup.depthVar
  distanceVar : dup'.distanceVar = dup.distanceVar
  withinVar : dup'.withinVar = dup.withinVar
  nocase_eq : dup'.nocase = dup.nocase
  pattern_eq : dup'.patternBuf = dup.patternBuf
  jump_eq : dup'.patternMaxJumpSize = dup.patternMaxJumpSize
  useDoe_eq : dup'.useDoe = dup.useDoe
  window : if dup'.useDoe then dup'.offset = 0 ∧ dup'.depth = 0 else dup'.distance = 0 ∧ dup'.within = 0
  place : (if dup'.useDoe then dup'.distance.toInt else dup'.offset.toInt) = start - cursor data dup doe
  depth : (dup.depth = 0 ∧ dup'.depth = 0) ∨ (0 < dup.depth.toInt ∧ 0 < dup'.depth.toInt ∧
    start + dup'.depth.toInt = base data dup doe + dup.depth.toInt)
  within : (dup.within = 0 ∧ dup'.within = 0) ∨ (dup.within ≠ 0 ∧ dup'.within ≠ 0 ∧
    start + dup'.within.toNat = base data dup doe + dup.within.toNat)

theorem ne_zero_of_toInt_pos {x : Int32} (h : 0 < x.toInt) : x ≠ 0 := by
  rintro rfl
  exact lt_irrefl 0 h

theorem Moved.windowed {start : ℤ} (h : Moved data doe dup dup' start) (hdup : Windowed dup) : Windowed dup' where
  offsetVar := h.offsetVar.trans hdup.offsetVar
  depthVar := h.depthVar.trans hdup.depthVar
  distanceVar := h.distanceVar.trans hdup.distanceVar
  withinVar := h.withinVar.trans hdup.withinVar
  depth_nonneg := by
    rcases h.depth with ⟨-, hzero⟩ | ⟨-, hpos, -⟩
    · rw [hzero]
      exact le_rfl
    · exact hpos.le
  window := h.window

theorem Moved.base_eq {start : ℤ} (h : Moved data doe dup dup' start) (hdup : Windowed dup) :
    base data dup' doe = start := by
  have hcursor : cursor data dup' doe = cursor data dup doe := by
    unfold cursor
    rw [h.useDoe_eq]
  rw [(h.windowed hdup).base_eq, h.place, hcursor]
  exact add_sub_cancel _ _

/-- What is left of the window behind a later place. -/
theorem Rest.moved (h : Rest data doe nocase raw orig dup) {start : ℤ} (hle : base data dup doe ≤ start)
    (hmoved : Moved data doe dup dup' start) : Rest data doe nocase raw orig dup' := by
  have hbase := hmoved.base_eq h.windowed
  have hsize : dup'.patternSize = dup.patternSize := by
    unfold PatternMatchData.patternSize
    rw [hmoved.pattern_eq]
  have hwindow : ∀ q, InWindow data dup' start q ↔ start ≤ q ∧ InWindow data dup (base data dup doe) q := by
    intro q
    rw [inWindow_def, inWindow_def, hsize]
    have hdepth : (0 < dup'.depth.toInt → q + dup.patternSize ≤ start + dup'.depth.toInt) ↔
        (0 < dup.depth.toInt → q + dup.patternSize ≤ base data dup doe + dup.depth.toInt) := by
      rcases hmoved.depth with ⟨hzero, hzero'⟩ | ⟨hpos, hpos', hend⟩
      · rw [hzero, hzero']
        exact ⟨fun _ h => absurd h (lt_irrefl 0), fun _ h => absurd h (lt_irrefl 0)⟩
      · rw [hend]
        exact ⟨fun h _ => h hpos', fun h _ => h hpos⟩
    have hwithin : (dup'.within ≠ 0 → q + dup.patternSize ≤ start + dup'.within.toNat) ↔
        (dup.within ≠ 0 → q + dup.patternSize ≤ base data dup doe + dup.within.toNat) := by
      rcases hmoved.within with ⟨hzero, hzero'⟩ | ⟨hne, hne', hend⟩
      · rw [hzero, hzero']
        exact ⟨fun _ h => absurd rfl h, fun _ h => absurd rfl h⟩
      · rw [hend]
        exact ⟨fun h _ => h hne', fun h _ => h hne⟩
    rw [hdepth, hwithin]
    exact ⟨fun h => ⟨h.1, hle.trans h.1, h.2⟩, fun h => ⟨h.1, h.2.2⟩⟩
  refine ⟨hmoved.windowed h.windowed, ⟨hmoved.nocase_eq.trans h.written.nocase_eq,
    hmoved.pattern_eq.trans h.written.pattern_eq, hmoved.jump_eq.trans h.written.jump_eq⟩,
    hmoved.useDoe_eq.trans h.useDoe_eq, ?_, ?_, hbase ▸ h.base_le.trans hle, fun q => ?_⟩
  · rw [← h.depth_iff]
    rcases hmoved.depth with ⟨hzero, hzero'⟩ | ⟨hpos, hpos', -⟩
    · rw [hzero, hzero']
    · exact iff_of_false (ne_zero_of_toInt_pos hpos') (ne_zero_of_toInt_pos hpos)
  · rw [← h.within_iff]
    rcases hmoved.within with ⟨hzero, hzero'⟩ | ⟨hne, hne', -⟩
    · rw [hzero, hzero']
    · exact iff_of_false hne' hne
  · rw [hbase, hwindow, h.window]
    exact ⟨fun h => ⟨h.1, h.2.2⟩, fun h => ⟨h.1, hle.trans h.1, h.2⟩⟩

/-- The size of the pattern. -/
theorem Written.size_eq (h : Written nocase raw dup) : dup.patternSize = raw.length := by
  unfold PatternMatchData.patternSize
  rw [h.pattern_eq, searched_length]

/-- A window without a depth and a window without `within`. -/
theorem Windowed.depth_pos (h : Windowed dup) (hdepth : dup.depth ≠ 0) : 0 < dup.depth.toInt :=
  lt_of_le_of_ne h.depth_nonneg fun hzero => hdepth (Int32.toInt_inj.1 hzero.symm)

/-- **Searching again**: with what is left of the window behind the jump, or not if the pattern does not fit
there. -/
theorem adjust_spec (hsized : data.Sized) (hdoe : CursorIn data doe) (h : Rest data doe nocase raw orig dup)
    (hin : data.Inside (base data dup doe)) (hwin : InWindow data dup (base data dup doe) p) :
    (patternMatchAdjustRelativeOffsets orig dup (p + dup.patternSize) (cursor data dup doe) = none ∧
        ∀ q, p + getMaxJumpSize raw ≤ q → ¬InWindow data dup (base data dup doe) q) ∨
      ∃ dup', patternMatchAdjustRelativeOffsets orig dup (p + dup.patternSize) (cursor data dup doe) = some dup' ∧
        Moved data doe dup dup' (p + getMaxJumpSize raw) := by
  have hlen : data.bytes.length < 2 ^ 31 := hsized
  have hstop : data.stop = data.start + data.bytes.length := rfl
  have hcursor := cursor_inside dup hdoe
  have hsize := h.written.size_eq
  have hjump := getMaxJumpSize_le raw
  rw [← h.written.jump_eq] at hjump ⊢
  have hpos := dup.patternSize_pos
  have hp := inWindow_def.1 hwin
  have hbase : base data dup doe = cursor data dup doe + _ := h.windowed.base_eq
  have hwindow := h.windowed.window
  obtain ⟨hin₁, hin₂⟩ := hin
  unfold patternMatchAdjustRelativeOffsets
  dsimp only
  rw [add_sub_cancel_right]
  generalize hstart : p + (dup.patternMaxJumpSize : ℤ) = start
  have hle : base data dup doe ≤ start := by omega
  -- the place behind the jump, from the cursor
  have hoffset : (Int32.ofInt (start - cursor data dup doe)).toInt = start - cursor data dup doe :=
    Int32.toInt_ofInt_of_le (by omega) (by omega)
  by_cases hdepth : orig.depth ≠ 0
  · have hdepth' := (not_congr h.depth_iff).2 hdepth
    have hdepth_pos := h.windowed.depth_pos hdepth'
    have hnot : ¬dup.useDoe = true := fun huse => by
      rw [if_pos huse] at hwindow
      exact hdepth' hwindow.2
    rw [if_neg hnot] at hbase hwindow
    rw [if_pos hdepth]
    split_ifs with hfull
    · exact Or.inl ⟨rfl, fun q hq hq' => by have := hq'.depth hdepth_pos; omega⟩
    · have hdepth_lt := dup.depth.toInt_lt
      have hdepth_eq : (Int32.ofInt (dup.depth.toInt - (start - (cursor data dup doe + dup.offset.toInt)))).toInt =
          dup.depth.toInt - (start - (cursor data dup doe + dup.offset.toInt)) :=
        Int32.toInt_ofInt_of_le (by omega) (by omega)
      refine Or.inr ⟨_, rfl, rfl, rfl, rfl, rfl, rfl, rfl, rfl, rfl, ?_, ?_, Or.inr ⟨hdepth_pos, ?_, ?_⟩,
        Or.inl ⟨hwindow.2, hwindow.2⟩⟩
      · rw [if_neg hnot]
        exact hwindow
      · rw [if_neg hnot]
        exact hoffset
      · dsimp only
        omega
      · dsimp only
        omega
  · have hdepth' : dup.depth = 0 := h.depth_iff.2 (not_not.1 hdepth)
    rw [if_neg hdepth]
    by_cases hwithin : orig.within ≠ 0
    · have hwithin' := (not_congr h.within_iff).2 hwithin
      have huse : dup.useDoe = true := by
        by_contra huse
        rw [if_neg huse] at hwindow
        exact hwithin' hwindow.2
      rw [if_pos huse] at hbase hwindow
      rw [if_pos hwithin]
      split_ifs with hfull
      · exact Or.inl ⟨rfl, fun q hq hq' => by have := hq'.within hwithin'; omega⟩
      · have hwithin_lt := dup.within.toNat_lt
        have hwithin_eq : (UInt32.ofNat (u32 (dup.within.toNat -
            (start - (cursor data dup doe + dup.distance.toInt))))).toNat =
            dup.within.toNat - (start - (cursor data dup doe + dup.distance.toInt)) := by
          rw [UInt32.toNat_ofNat_of_lt' (u32_lt _)]
          unfold u32
          omega
        refine Or.inr ⟨_, rfl, rfl, rfl, rfl, rfl, rfl, rfl, rfl, rfl, ?_, ?_, Or.inl ⟨hdepth', hdepth'⟩,
          Or.inr ⟨hwithin', ?_, ?_⟩⟩
        · rw [if_pos huse]
          exact hwindow
        · rw [if_pos huse]
          exact hoffset
        · intro hzero
          dsimp only at hzero
          rw [hzero] at hwithin_eq
          have : (0 : UInt32).toNat = 0 := rfl
          omega
        · dsimp only
          omega
    · have hwithin' : dup.within = 0 := h.within_iff.2 (not_not.1 hwithin)
      rw [if_neg hwithin, ← h.useDoe_eq]
      split_ifs with huse
      · rw [if_pos huse] at hwindow
        refine Or.inr ⟨_, rfl, rfl, rfl, rfl, rfl, rfl, rfl, rfl, rfl, ?_, ?_, Or.inl ⟨hdepth', hdepth'⟩,
          Or.inl ⟨hwithin', hwithin'⟩⟩
        · rw [if_pos huse]
          exact hwindow
        · rw [if_pos huse]
          exact hoffset
      · rw [if_neg huse] at hwindow
        refine Or.inr ⟨_, rfl, rfl, rfl, rfl, rfl, rfl, rfl, rfl, rfl, ?_, ?_, Or.inl ⟨hdepth', hdepth'⟩,
          Or.inl ⟨hwithin', hwithin'⟩⟩
        · rw [if_neg huse]
          exact hwindow
        · rw [if_neg huse]
          exact hoffset

end Adjust

/-! ### The loop -/

section Loop

variable {data : Buffer} {doe : Doe} {nocase : Bool} {raw : List Byte} {orig dup : PatternMatchData}

theorem Written.occursAt (h : Written nocase raw dup) (p : ℤ) : OccursAt data dup p ↔
    ∃ k : ℕ, p = data.start + k ∧ Occurs (searched nocase raw) (data.bytes.map (folded nocase)) k := by
  unfold OccursAt PatternMatchData.fold folded
  rw [h.pattern_eq, h.nocase_eq]

theorem NoSkip.le (h : NoSkip nocase raw) (hdup : Written nocase raw dup) {p q : ℤ} (hp : OccursAt data dup p)
    (hq : OccursAt data dup q) (hlt : p < q) : p + getMaxJumpSize raw ≤ q := by
  obtain ⟨i, rfl, hi⟩ := (hdup.occursAt p).1 hp
  obtain ⟨j, rfl, hj⟩ := (hdup.occursAt q).1 hq
  have := h data.bytes i j hi hj (by omega)
  omega

/-- A round of the loop that finds the content. -/
theorem contentLoop_found {extracted : Int8 → UInt32} {doe' : Doe} {p : ℤ}
    (hrun : uniSearchReal extracted data dup doe = some (1, dup, doe'))
    (hptr : doe'.doePtr = some (p + dup.patternSize)) (fuel : ℕ) :
    contentLoop extracted data orig doe (fuel + 1) dup =
      (patternMatchAdjustRelativeOffsets orig dup (p + dup.patternSize) (cursor data dup doe)).elim (some [p])
        fun next => (contentLoop extracted data orig doe fuel next).map (p :: ·) := by
  rw [contentLoop, hrun, Option.bind_eq_bind, Option.bind_some]
  dsimp only
  rw [if_neg (not_not.2 rfl), hptr, Option.bind_eq_bind, Option.bind_some, add_sub_cancel_right]
  unfold cursor
  cases patternMatchAdjustRelativeOffsets orig dup (p + dup.patternSize) _ <;> rfl

/-- **A run of the loop** from what is left of the window: each time the jump is behind the match, and what
is found after it is what is left there. -/
theorem contentLoop_spec (extracted : Int8 → UInt32) (hskip : NoSkip nocase raw) (hsized : data.Sized)
    (hdoe : CursorIn data doe) (left : ℕ) :
    ∀ dup, Rest data doe nocase raw orig dup → data.start ≤ base data dup doe →
      (data.stop - base data dup doe).toNat < left →
      ∃ fuel ps, contentLoop extracted data orig doe fuel dup = some ps ∧ ps.Pairwise (· < ·) ∧
        ∀ p, p ∈ ps ↔ InWindow data dup (base data dup doe) p ∧ OccursAt data dup p := by
  induction left with
  | zero => exact fun dup _ _ h => absurd h (Nat.not_lt_zero _)
  | succ left ih =>
    intro dup h hstart hleft
    obtain ⟨r, doe', hrun, hresult⟩ := uniSearchReal_spec dup extracted hsized hdoe
    rw [h.windowed.values] at hrun hresult
    rcases hresult with ⟨rfl, hin, p, hfirst, rfl⟩ | ⟨hr, -, hnone, -⟩
    · -- what else is there stands behind the jump
      have hpos := dup.patternSize_pos
      have hne : raw ≠ [] := by
        rw [h.written.size_eq] at hpos
        exact List.ne_nil_of_length_pos hpos
      have hjump := getMaxJumpSize_pos hne
      have hbehind : ∀ q, InWindow data dup (base data dup doe) q ∧ OccursAt data dup q ↔
          q = p ∨ (p + getMaxJumpSize raw ≤ q ∧ InWindow data dup (base data dup doe) q ∧ OccursAt data dup q) := by
        intro q
        constructor
        · rintro ⟨hwin, hat⟩
          rcases lt_trichotomy q p with hlt | rfl | hlt
          · exact absurd hat (hfirst.first q hlt hwin)
          · exact Or.inl rfl
          · exact Or.inr ⟨hskip.le h.written hfirst.occurs hat hlt, hwin, hat⟩
        · rintro (rfl | ⟨-, hq⟩)
          · exact ⟨hfirst.inside, hfirst.occurs⟩
          · exact hq
      have hround : ∀ fuel, contentLoop extracted data orig doe (fuel + 1) dup = _ :=
        fun fuel => contentLoop_found hrun rfl fuel
      rcases adjust_spec hsized hdoe h hin hfirst.inside with ⟨hadjust, hfull⟩ | ⟨dup', hadjust, hmoved⟩
      · rw [hadjust] at hround
        refine ⟨1, [p], hround 0, List.pairwise_singleton _ _, fun q => ?_⟩
        rw [hbehind, List.mem_singleton]
        exact ⟨Or.inl, fun hq => hq.elim id fun hq => absurd hq.2.1 (hfull q hq.1)⟩
      · have hle := hfirst.inside.base_le
        have hrest := h.moved (by omega) hmoved
        have hbase := hmoved.base_eq h.windowed
        have hoccurs : ∀ q, OccursAt data dup' q ↔ OccursAt data dup q := fun q => by
          rw [hrest.written.occursAt, h.written.occursAt]
        obtain ⟨hin₁, hin₂⟩ := hin
        obtain ⟨fuel, ps, hloop, hsorted, hmem⟩ := ih dup' hrest (by omega) (by omega)
        -- what is left behind the jump
        have hmem' : ∀ q, q ∈ ps ↔ p + getMaxJumpSize raw ≤ q ∧
            InWindow data dup (base data dup doe) q ∧ OccursAt data dup q := by
          intro q
          rw [hmem, hoccurs, hrest.window, h.window, hbase]
          exact ⟨fun hq => ⟨hq.1.1, ⟨by omega, hq.1.2⟩, hq.2⟩, fun hq => ⟨⟨hq.1, hq.2.1.2⟩, hq.2.2⟩⟩
        rw [hadjust] at hround
        refine ⟨fuel + 1, p :: ps, ?_, List.pairwise_cons.2 ⟨fun q hq => ?_, hsorted⟩, fun q => ?_⟩
        · rw [hround, Option.elim_some, hloop, Option.map_some]
        · have := ((hmem' q).1 hq).1
          omega
        · rw [hbehind, List.mem_cons, hmem']
    · refine ⟨1, [], ?_, List.Pairwise.nil, fun p => ⟨fun hp => absurd hp List.not_mem_nil, ?_⟩⟩
      · rw [contentLoop, hrun, Option.bind_eq_bind, Option.bind_some]
        dsimp only
        rw [if_pos (by omega)]
      · rintro ⟨hwin, hat⟩
        by_cases hin : data.Inside (base data dup doe)
        · exact absurd hat (hnone hin p hwin)
        · have hpos := dup.patternSize_pos
          have hp := inWindow_def.1 hwin
          exact absurd ⟨hstart, by omega⟩ hin

/-- All matches in the window of a content are found, in order. -/
def Enumerates (nocase : Bool) (raw : List Byte) : Prop :=
  ∀ (extracted : Int8 → UInt32) (data : Buffer) (pmd : PatternMatchData) (doe : Doe), Written nocase raw pmd →
    Windowed pmd → data.Sized → CursorIn data doe → data.Inside (base data pmd doe) →
    ∃ fuel ps, contentLoop extracted data pmd doe fuel pmd = some ps ∧ ps.Pairwise (· < ·) ∧
      ∀ p, p ∈ ps ↔ InWindow data pmd (base data pmd doe) p ∧ OccursAt data pmd p

theorem NoSkip.enumerates (h : NoSkip nocase raw) : Enumerates nocase raw :=
  fun extracted _ _ _ hwritten hwindowed hsized hdoe hin =>
    contentLoop_spec extracted h hsized hdoe _ _ (Rest.refl hwindowed hwritten) hin.1 (Nat.lt_succ_self _)

end Loop

/-- **Retrying a content**: no match is skipped, and searching again finds all matches in the window in order,
just for the patterns for which the jump is right. -/
theorem restart_iff (nocase : Bool) (raw : List Byte) :
    NoSkip nocase raw ∧ Enumerates nocase raw ↔ JumpsRight nocase raw :=
  ⟨fun h => noSkip_iff.1 h.1, fun h => ⟨noSkip_iff.2 h, (noSkip_iff.2 h).enumerates⟩⟩

/-- `aabaaab` stands in `aabaaabaaab` twice, four characters apart; the jump is seven. -/
theorem aabaaab_skipped : ¬∀ nocase raw, NoSkip nocase raw ∧ Enumerates nocase raw := by
  intro h
  have hle := (h false [97, 97, 98, 97, 97, 97, 98]).1 [97, 97, 98, 97, 97, 97, 98, 97, 97, 97, 98] 0 4
    (by decide) (by decide) (by decide)
  have hjump : getMaxJumpSize [97, 97, 98, 97, 97, 97, 98] = 7 := by decide
  omega

end Snort.Pattern
