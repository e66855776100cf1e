import Snort.Frag3.Frame
import Snort.Frag3.Invariants

/-!
# Two histories and a timeout

A tracker that has timed out is emptied, but `overlap_count` stays.  Nothing but the test of the
overlap limit reads it: `frag3Insert` on a tracker with a larger count does the same, with the
larger count.

* `addOverlaps`: a tracker with more overlaps counted;
* `rightLoop_addOverlaps`, `insertCut_addOverlaps`: the count is carried along;
* **`timeout_forgets`**: two histories that time out go on alike as long as the overlap limit is
  told alike.
-/

namespace Snort.Frag3

open CInt

/-! ### More overlaps -/

def FragTracker.addOverlaps (ft : FragTracker) (n : ℕ) : FragTracker :=
  { ft with overlapCount := ft.overlapCount + n }

def Walk.addOverlaps (w : Walk) (n : ℕ) : Walk := { w with ft := w.ft.addOverlaps n }

/-- A result with more overlaps. -/
def liftOverlaps {α : Type} (n : ℕ) (f : α → α) :
    Except (InsertRet × Walk) α → Except (InsertRet × Walk) α
  | .error e => .error (e.1, e.2.addOverlaps n)
  | .ok a => .ok (f a)

variable {env : Env} {ctx : Frag3Context} {p : Packet} {c : Cut} {w : Walk} {n : ℕ}
  {ft : FragTracker}

theorem countOverlap_addOverlaps (w : Walk) (n : ℕ) :
    (w.addOverlaps n).countOverlap = w.countOverlap.addOverlaps n := by
  simp only [Walk.countOverlap, Walk.addOverlaps, FragTracker.addOverlaps, Nat.add_right_comm]

theorem alertOverlap_addOverlaps (ctx : Frag3Context) (w : Walk) (n : ℕ) :
    (w.addOverlaps n).alertOverlap ctx = (w.alertOverlap ctx).addOverlaps n := by
  have hflag : (w.addOverlaps n).alertedOverlap = w.alertedOverlap := rfl
  rw [Walk.alertOverlap, Walk.alertOverlap, hflag, countOverlap_addOverlaps]
  by_cases h : (!w.alertedOverlap) = true ∧ ctx.detectAnomalies = true
  · rw [if_pos h, if_pos h]
    rfl
  · rw [if_neg h, if_neg h]

theorem addFragNode_addOverlaps (env : Env) (p : Packet) (c : Cut) (lastfrag : Bool) (w : Walk)
    (n : ℕ) :
    addFragNode env p c lastfrag (w.addOverlaps n) =
      liftOverlaps n (Prod.map id (·.addOverlaps n)) (addFragNode env p c lastfrag w) := by
  have hord : (w.addOverlaps n).ft.ordinal = w.ft.ordinal := rfl
  have hsize : i16 (c.len - u16 (w.addOverlaps n).slide - u16 (w.addOverlaps n).trunc) =
      i16 (c.len - u16 w.slide - u16 w.trunc) := rfl
  unfold addFragNode
  dsimp only
  rw [hsize, hord]
  by_cases hempty : i16 (c.len - u16 w.slide - u16 w.trunc) ≤ 0
  · rw [if_pos hempty, if_pos hempty]
    rfl
  · rw [if_neg hempty, if_neg hempty]
    by_cases hmem : env.fragNode w.ft.ordinal = true
    · rw [if_pos hmem, if_pos hmem]
      rfl
    · rw [if_neg hmem, if_neg hmem]
      rfl

theorem dupFragNode_addOverlaps (env : Env) (left : Frag3Frag) (w : Walk) (n : ℕ) :
    dupFragNode env left (w.addOverlaps n) =
      liftOverlaps n (Prod.map id (·.addOverlaps n)) (dupFragNode env left w) := by
  have hord : (w.addOverlaps n).ft.ordinal = w.ft.ordinal := rfl
  unfold dupFragNode
  dsimp only
  rw [hord]
  by_cases hmem : env.fragNode w.ft.ordinal = true
  · rw [if_pos hmem, if_pos hmem]
    rfl
  · rw [if_neg hmem, if_neg hmem]
    rfl

theorem leftOverlapLast_addOverlaps (left : Frag3Frag) (bs : List Frag3Frag) (w : Walk) (n : ℕ) :
    leftOverlapLast left bs (w.addOverlaps n) = (leftOverlapLast left bs w).addOverlaps n := by
  unfold leftOverlapLast
  split_ifs <;> rfl

theorem truncLeft_addOverlaps (env : Env) (c : Cut) (overlap : ℤ) (left : Frag3Frag)
    (bs : List Frag3Frag) (w : Walk) (n : ℕ) :
    truncLeft env c overlap left bs (w.addOverlaps n) =
      liftOverlaps n (·.addOverlaps n) (truncLeft env c overlap left bs w) := by
  have hoffset : (w.addOverlaps n).fragOffset = w.fragOffset := rfl
  unfold truncLeft
  rw [hoffset, dupFragNode_addOverlaps]
  by_cases h : left.offset < w.fragOffset ∧ (left.stop : ℤ) > w.fragOffset + c.len
  · rw [if_pos h, if_pos h]
    cases dupFragNode env left w with
    | error e => rfl
    | ok r =>
      obtain ⟨right, w'⟩ := r
      have hlast := fun w' : Walk => leftOverlapLast_addOverlaps
        { left with size := u16 (left.size - i16 overlap) } bs w' n
      exact congrArg Except.ok (hlast { (w'.subBytes _).subBytes _ with rest := _ })
  · rw [if_neg h, if_neg h]
    exact congrArg Except.ok (leftOverlapLast_addOverlaps _ bs (w.subBytes _) n)

theorem leftSwitch_addOverlaps (env : Env) (c : Cut) (overlap : ℤ) (left : Frag3Frag)
    (bs : List Frag3Frag) (w : Walk) (n : ℕ) :
    leftSwitch env c overlap left bs (w.addOverlaps n) =
      liftOverlaps n (·.addOverlaps n) (leftSwitch env c overlap left bs w) := by
  have hpolicy : (w.addOverlaps n).ft.fragPolicy = w.ft.fragPolicy := rfl
  have hslide : (w.addOverlaps n).slideBy overlap = (w.slideBy overlap).addOverlaps n := rfl
  have hmoved : ((w.slideBy overlap).addOverlaps n).fragOffset = (w.slideBy overlap).fragOffset := rfl
  have hoffset : (w.addOverlaps n).fragOffset = w.fragOffset := rfl
  unfold leftSwitch
  rw [hpolicy, hslide, truncLeft_addOverlaps, leftOverlapLast_addOverlaps]
  dsimp only
  rw [hmoved, hoffset]
  cases w.ft.fragPolicy with
  | last => rfl
  | bsdRight =>
    dsimp only
    split_ifs <;> rfl
  | first | linux | bsd | windows | solaris =>
    dsimp only
    split_ifs <;> rfl

theorem leftOverlap_addOverlaps (env : Env) (p : Packet) (c : Cut) (w : Walk) (n : ℕ) :
    leftOverlap env p c (w.addOverlaps n) =
      liftOverlaps n (·.addOverlaps n) (leftOverlap env p c w) := by
  have hbefore : (w.addOverlaps n).before = w.before := rfl
  have hoffset : (w.addOverlaps n).fragOffset = w.fragOffset := rfl
  unfold leftOverlap
  rw [hbefore, hoffset, countOverlap_addOverlaps]
  cases w.before with
  | nil => rfl
  | cons left bs =>
    dsimp only
    have htear : teardrop p c (w.countOverlap.addOverlaps n).ft = teardrop p c w.countOverlap.ft :=
      rfl
    rw [leftSwitch_addOverlaps, htear]
    by_cases hover : (left.stop : ℤ) - w.fragOffset > 0
    · rw [if_pos hover, if_pos hover]
      by_cases htear' : teardrop p c w.countOverlap.ft = true
      · rw [if_pos htear', if_pos htear']
        rfl
      · rw [if_neg htear', if_neg htear']
        cases leftSwitch env c (left.stop - w.fragOffset) left bs w.countOverlap with
        | error e => rfl
        | ok w' =>
          have hmoved : (w'.addOverlaps n).fragOffset = w'.fragOffset := rfl
          dsimp only [liftOverlaps]
          rw [hmoved]
          split_ifs <;> rfl
    · rw [if_neg hover, if_neg hover]
      rfl

/-! ### The right side -/

theorem rejectTrim_addOverlaps (c : Cut) (right : Frag3Frag) (next : List Frag3Frag) (w : Walk)
    (n : ℕ) :
    rejectTrim c right next (w.addOverlaps n) = (rejectTrim c right next w).addOverlaps n := by
  have hoffset : (w.addOverlaps n).fragOffset = w.fragOffset := rfl
  unfold rejectTrim
  dsimp only
  rw [hoffset]
  by_cases h : right.offset = w.fragOffset
  · rw [if_pos h, if_pos h]
    rfl
  · rw [if_neg h, if_neg h]
    rfl

theorem afterChunk_addOverlaps (c : Cut) (newfrag : Frag3Frag) (w : Walk) (n : ℕ) :
    afterChunk c newfrag (w.addOverlaps n) =
      ((afterChunk c newfrag w).1, (afterChunk c newfrag w).2.addOverlaps n) := by
  unfold afterChunk
  dsimp only [Walk.addOverlaps]
  split_ifs <;> rfl

theorem rejectOverlap_addOverlaps (env : Env) (p : Packet) (c : Cut) (right : Frag3Frag)
    (next : List Frag3Frag) (w : Walk) (n : ℕ) :
    rejectOverlap env p c right next (w.addOverlaps n) =
      liftOverlaps n (Prod.map id (·.addOverlaps n)) (rejectOverlap env p c right next w) := by
  have hfields : ∀ w : Walk, (w.addOverlaps n).trunc = w.trunc ∧
      (w.addOverlaps n).fragOffset = w.fragOffset := fun _ => ⟨rfl, rfl⟩
  unfold rejectOverlap
  rw [rejectTrim_addOverlaps]
  dsimp only
  rw [(hfields _).1, (hfields _).2, addFragNode_addOverlaps]
  by_cases hend : (c.fragEnd : ℤ) - (rejectTrim c right next w).trunc ≤
      (rejectTrim c right next w).fragOffset
  · rw [if_pos hend, if_pos hend]
    rfl
  · rw [if_neg hend, if_neg hend]
    cases addFragNode env p c false (rejectTrim c right next w) with
    | error e => rfl
    | ok r => exact congrArg Except.ok (afterChunk_addOverlaps c r.1 r.2 n)

theorem truncRight_addOverlaps (right : Frag3Frag) (next : List Frag3Frag) (overlap : ℤ) (w : Walk)
    (n : ℕ) :
    truncRight right next overlap (w.addOverlaps n) =
      (truncRight right next overlap w).addOverlaps n := by
  unfold truncRight
  dsimp only
  split_ifs <;> rfl

theorem partialOverlap_addOverlaps (right : Frag3Frag) (next : List Frag3Frag) (overlap : ℤ)
    (w : Walk) (n : ℕ) :
    partialOverlap right next overlap (w.addOverlaps n) =
      (partialOverlap right next overlap w).addOverlaps n := by
  have hpolicy : (w.addOverlaps n).ft.fragPolicy = w.ft.fragPolicy := rfl
  have hoffset : (w.addOverlaps n).fragOffset = w.fragOffset := rfl
  unfold partialOverlap
  rw [hpolicy, hoffset, truncRight_addOverlaps]
  cases w.ft.fragPolicy with
  | bsd =>
    dsimp only
    split_ifs <;> rfl
  | first | linux | bsdRight | last | windows | solaris => rfl

/-- The right-side loop carries the count along. -/
theorem rightLoop_addOverlaps (env : Env) (ctx : Frag3Context) (p : Packet) (c : Cut) (n : ℕ) :
    ∀ (fuel : ℕ) (w : Walk), rightLoop env ctx p c fuel (w.addOverlaps n) =
      liftOverlaps n (Prod.map id (·.addOverlaps n)) (rightLoop env ctx p c fuel w) := by
  intro fuel
  induction fuel with
  | zero => exact fun _ => rfl
  | succ fuel ih =>
    intro w
    cases hrest : w.rest with
    | nil =>
      have hrest' : (w.addOverlaps n).rest = [] := hrest
      rw [rightLoop, rightLoop, hrest, hrest']
      rfl
    | cons right next =>
      have hrest' : (w.addOverlaps n).rest = right :: next := hrest
      have htrunc : ({ w.addOverlaps n with trunc := 0 } : Walk) =
          ({ w with trunc := 0 } : Walk).addOverlaps n := rfl
      have htear : teardrop p c (w.addOverlaps n).ft = teardrop p c w.ft := rfl
      have hpolicy : (w.addOverlaps n).ft.fragPolicy = w.ft.fragPolicy := rfl
      have hoffset : (w.addOverlaps n).fragOffset = w.fragOffset := rfl
      rw [rightLoop_round hrest, rightLoop_round hrest', htrunc,
        htear, hpolicy, hoffset, countOverlap_addOverlaps, partialOverlap_addOverlaps,
        alertOverlap_addOverlaps, rejectOverlap_addOverlaps]
      generalize ({ w with trunc := 0 } : Walk) = w₀
      by_cases hstart : right.offset < c.fragEnd
      · rw [if_pos hstart, if_pos hstart]
        by_cases hattack : (c.fragEnd : ℤ) - right.offset ≠ 0 ∧ teardrop p c w.ft
        · rw [if_pos hattack, if_pos hattack]
          rfl
        rw [if_neg hattack, if_neg hattack]
        by_cases hpart : (c.fragEnd : ℤ) - right.offset < right.size
        · rw [if_pos hpart, if_pos hpart]
          rfl
        rw [if_neg hpart, if_neg hpart]
        cases fullAction w.ft.fragPolicy w.fragOffset c.fragEnd right with
        | dump => exact ih { (w₀.alertOverlap ctx).subBytes right.size with rest := next }
        | reject =>
          dsimp only
          cases rejectOverlap env p c right next (w₀.alertOverlap ctx) with
          | error e => rfl
          | ok r =>
            obtain ⟨_ | addthis, w'⟩ := r
            · exact ih w'
            · rfl
      · rw [if_neg hstart, if_neg hstart]
        rfl

theorem frag3CheckFirstLast_addOverlaps (p : Packet) (ft : FragTracker) (n : ℕ) :
    frag3CheckFirstLast p (ft.addOverlaps n) =
      Prod.map (FragTracker.addOverlaps · n) id (frag3CheckFirstLast p ft) := by
  have hfields : (ft.addOverlaps n).gotLast = ft.gotLast ∧
      (ft.addOverlaps n).calculatedSize = ft.calculatedSize ∧
      (ft.addOverlaps n).fragPolicy = ft.fragPolicy := ⟨rfl, rfl, rfl⟩
  unfold frag3CheckFirstLast
  dsimp only
  rw [hfields.1, hfields.2.1, hfields.2.2]
  by_cases hfirst : p.mf ∧ p.fragOffset = 0
  · rw [if_pos hfirst, if_pos hfirst]
    rfl
  rw [if_neg hfirst, if_neg hfirst]
  by_cases hlast : (!p.mf) = true ∧ p.fragOffset > 0
  · rw [if_pos hlast, if_pos hlast]
    by_cases hgrow : ft.calculatedSize < u16 (p.fragOffset * 8 + p.ipFragLen) ∧
        (if ft.gotLast then
          if ft.calculatedSize > u16 (p.fragOffset * 8 + p.ipFragLen) then FirstLast.lastDuplicate
          else if ft.fragPolicy = .solaris then .lastOffsetAdjust else .firstlastOk
        else .firstlastOk) ≠ .lastOffsetAdjust
    · rw [if_pos hgrow, if_pos hgrow]
      rfl
    · rw [if_neg hgrow, if_neg hgrow]
      rfl
  · rw [if_neg hlast, if_neg hlast]
    rfl

theorem frag3Expire_addOverlaps (ctx : Frag3Context) (p : Packet) (ft : FragTracker) (n : ℕ) :
    frag3Expire ctx p (ft.addOverlaps n) = (frag3Expire ctx p ft).addOverlaps n := by
  have htime : (ft.addOverlaps n).fragTime = ft.fragTime := rfl
  unfold frag3Expire
  rw [htime]
  by_cases h : checkTimeout p.ts ft.fragTime ctx = true
  · rw [if_pos h, if_pos h]
    rfl
  · rw [if_neg h, if_neg h]

/-- A result of the first part with more overlaps. -/
def liftCut (n : ℕ) : Except (InsertRet × FragTracker) (Cut × FragTracker) →
    Except (InsertRet × FragTracker) (Cut × FragTracker)
  | .error e => .error (e.1, e.2.addOverlaps n)
  | .ok r => .ok (r.1, r.2.addOverlaps n)

/-- The first part of `Frag3Insert` carries the count along. -/
theorem cutFragment_addOverlaps (p : Packet) (flo : FirstLast) (ft : FragTracker) (n : ℕ) :
    cutFragment p flo (ft.addOverlaps n) = liftCut n (cutFragment p flo ft) := by
  have hfields : (ft.addOverlaps n).gotLast = ft.gotLast ∧
      (ft.addOverlaps n).calculatedSize = ft.calculatedSize := ⟨rfl, rfl⟩
  have hrest : ∀ (c : Cut) (ft : FragTracker),
      (if c.fragEnd = c.fragOffset then .error (.anomaly, ft.addOverlaps n)
        else if (ft.addOverlaps n).calculatedSize > ipMaxpacket then
          .error (.anomaly, { ft.addOverlaps n with bad := true })
        else .ok (c, ft.addOverlaps n)) =
      liftCut n (if c.fragEnd = c.fragOffset then .error (.anomaly, ft)
        else if ft.calculatedSize > ipMaxpacket then .error (.anomaly, { ft with bad := true })
        else .ok (c, ft)) := by
    intro c ft
    have hsize : (ft.addOverlaps n).calculatedSize = ft.calculatedSize := rfl
    rw [hsize]
    split_ifs <;> rfl
  unfold cutFragment
  dsimp only
  rw [hfields.1, hfields.2]
  generalize (if flo = .lastOffsetAdjust then u16 ft.calculatedSize else u16 (p.fragOffset * 8)) =
    fragOffset
  generalize u16 (fragOffset + i16 p.ipFragLen) = fragEnd
  generalize u16 (p.fragOffset * 8) = origOffset
  generalize i16 p.ipFragLen = fragLength
  cases p.mf with
  | false =>
    have hnot : (!false) = true := rfl
    rw [if_pos hnot, if_pos hnot]
    by_cases hgrow : fragEnd > ft.calculatedSize ∧ flo = .lastOffsetAdjust
    · rw [if_pos hgrow, if_pos hgrow]
      exact hrest ⟨origOffset, fragOffset, fragEnd, fragLength, fragLength, true⟩
        { ft with calculatedSize := fragEnd }
    · rw [if_neg hgrow, if_neg hgrow]
      exact hrest _ ft
  | true =>
    have hnot : ¬ (!true) = true := Bool.false_ne_true
    rw [if_neg hnot, if_neg hnot]
    by_cases hgrow : fragEnd / 8 * 8 > ft.calculatedSize
    · rw [if_pos hgrow, if_pos hgrow]
      by_cases hlast : ft.gotLast = true
      · rw [if_pos hlast, if_pos hlast]
        rfl
      · rw [if_neg hlast, if_neg hlast]
        exact hrest _ { ft with calculatedSize := fragEnd / 8 * 8 }
    · rw [if_neg hgrow, if_neg hgrow]
      exact hrest _ ft

/-! ### The overlaps that a fragment meets -/

/-- A held fragment starts before the end of the new one and reaches beyond it. -/
def partMet (c : Cut) (rest : List Frag3Frag) : ℕ :=
  (rest.any fun n => decide (n.offset < c.fragEnd ∧ c.fragEnd < n.stop)).toNat

/-- A held fragment starts before the end of the new one and ends there or earlier, and
anomalies are detected. -/
def fullMet (ctx : Frag3Context) (c : Cut) (rest : List Frag3Frag) : ℕ :=
  (ctx.detectAnomalies && rest.any fun n => decide (n.offset < c.fragEnd ∧ n.stop ≤ c.fragEnd)).toNat

theorem toNat_any_le {l l' : List Frag3Frag} (f : Frag3Frag → Bool) (h : l' ⊆ l) :
    (l'.any f).toNat ≤ (l.any f).toNat := by
  cases hl : l'.any f with
  | false => exact Nat.zero_le _
  | true =>
    obtain ⟨n, hn, hf⟩ := List.any_eq_true.1 hl
    rw [List.any_eq_true.2 ⟨n, h hn, hf⟩]

theorem partMet_mono {l l' : List Frag3Frag} (h : l' ⊆ l) : partMet c l' ≤ partMet c l :=
  toNat_any_le _ h

theorem fullMet_mono {l l' : List Frag3Frag} (h : l' ⊆ l) :
    fullMet ctx c l' ≤ fullMet ctx c l := by
  unfold fullMet
  cases ctx.detectAnomalies with
  | false => exact le_rfl
  | true => exact toNat_any_le _ h

theorem partialOverlap_count (right : Frag3Frag) (next : List Frag3Frag) (overlap : ℤ) (w : Walk) :
    (partialOverlap right next overlap w).ft.overlapCount = w.ft.overlapCount := by
  have htrunc : (truncRight right next overlap w).ft.overlapCount = w.ft.overlapCount := by
    unfold truncRight
    dsimp only
    split_ifs <;> rfl
  unfold partialOverlap
  split
  · exact htrunc
  · exact htrunc
  · split_ifs
    · rfl
    · exact htrunc
  all_goals rfl

/-- What an alert changes: it counts, once. -/
theorem alertOverlap_count (ctx : Frag3Context) (w : Walk) {l : List Frag3Frag}
    (hl : (l.any fun n => decide (n.offset < c.fragEnd ∧ n.stop ≤ c.fragEnd)) = true)
    {l' : List Frag3Frag} (hsub : l' ⊆ l) :
    w.ft.overlapCount ≤ (w.alertOverlap ctx).ft.overlapCount ∧
      (w.alertOverlap ctx).ft.overlapCount +
          (if (w.alertOverlap ctx).alertedOverlap then 0 else fullMet ctx c l') ≤
        w.ft.overlapCount + (if w.alertedOverlap then 0 else fullMet ctx c l) := by
  have hmono : fullMet ctx c l' ≤ fullMet ctx c l := fullMet_mono hsub
  unfold Walk.alertOverlap
  by_cases h : (!w.alertedOverlap) = true ∧ ctx.detectAnomalies = true
  · have hflag : w.alertedOverlap = false := by simpa using h.1
    have hone : fullMet ctx c l = 1 := by simp only [fullMet, h.2, hl, Bool.and_self, Bool.toNat_true]
    rw [if_pos h]
    simp [Walk.countOverlap, hflag, hone]
  · rw [if_neg h]
    refine ⟨le_rfl, ?_⟩
    split_ifs <;> omega

/-- The loop counts no more overlaps than the fragment meets. -/
theorem rightLoop_count (env : Env) (ctx : Frag3Context) (p : Packet) (c : Cut) :
    ∀ (fuel : ℕ) (w : Walk) {b : Bool} {w' : Walk}, rightLoop env ctx p c fuel w = .ok (b, w') →
      w.ft.overlapCount ≤ w'.ft.overlapCount ∧
        w'.ft.overlapCount ≤ w.ft.overlapCount + partMet c w.rest +
          (if w.alertedOverlap then 0 else fullMet ctx c w.rest) := by
  intro fuel
  induction fuel with
  | zero =>
    intro w b w' h
    cases h
    omega
  | succ fuel ih =>
    intro w b w' h
    cases hrest : w.rest with
    | nil =>
      rw [rightLoop_nil hrest] at h
      cases h
      omega
    | cons right next =>
      rw [rightLoop_round hrest] at h
      have hfields : ({ w with trunc := 0 } : Walk).ft.overlapCount = w.ft.overlapCount ∧
          ({ w with trunc := 0 } : Walk).alertedOverlap = w.alertedOverlap ∧
          ({ w with trunc := 0 } : Walk).rest = right :: next := ⟨rfl, rfl, hrest⟩
      generalize ({ w with trunc := 0 } : Walk) = w₀ at h hfields
      obtain ⟨hcount, halerted, hrest'⟩ := hfields
      rw [← hcount, ← halerted]
      by_cases hstart : right.offset < c.fragEnd
      swap
      · rw [if_neg hstart] at h
        cases h
        omega
      rw [if_pos hstart] at h
      by_cases hattack : (c.fragEnd : ℤ) - right.offset ≠ 0 ∧ teardrop p c w.ft
      · rw [if_pos hattack] at h
        cases h
      rw [if_neg hattack] at h
      by_cases hpart : (c.fragEnd : ℤ) - right.offset < right.size
      · -- a fragment that reaches beyond the new one is counted and ends the loop
        rw [if_pos hpart] at h
        have hmet : partMet c (right :: next) = 1 := by
          have hreach : right.offset < c.fragEnd ∧ c.fragEnd < right.stop :=
            ⟨hstart, by simp only [Frag3Frag.stop]; omega⟩
          simp only [partMet, List.any_cons, hreach, and_self, decide_true, Bool.true_or,
            Bool.toNat_true]
        obtain ⟨-, rfl⟩ := Prod.mk.inj (Except.ok.inj h)
        rw [partialOverlap_count, hmet]
        simp only [Walk.countOverlap]
        omega
      rw [if_neg hpart] at h
      have hmet : ((right :: next).any
          fun n => decide (n.offset < c.fragEnd ∧ n.stop ≤ c.fragEnd)) = true := by
        have hcov : right.offset < c.fragEnd ∧ right.stop ≤ c.fragEnd :=
          ⟨hstart, by simp only [Frag3Frag.stop]; omega⟩
        simp only [List.any_cons, hcov, and_self, decide_true, Bool.true_or]
      cases hact : fullAction w.ft.fragPolicy w.fragOffset c.fragEnd right with
      | dump =>
        rw [hact] at h
        have hsub := List.subset_cons_self right next
        have hstep : (w₀.alertOverlap ctx).ft.overlapCount ≤ w'.ft.overlapCount ∧
            w'.ft.overlapCount ≤ (w₀.alertOverlap ctx).ft.overlapCount + partMet c next +
              (if (w₀.alertOverlap ctx).alertedOverlap then 0 else fullMet ctx c next) := ih _ h
        have halert := alertOverlap_count ctx w₀ hmet hsub
        have hpm : partMet c next ≤ partMet c (right :: next) := partMet_mono hsub
        exact ⟨halert.1.trans hstep.1, by omega⟩
      | reject =>
        rw [hact] at h
        dsimp only at h
        have hrest₁ := (w₀.alertOverlap_eqs ctx).1.trans hrest'
        cases hrej : rejectOverlap env p c right next (w₀.alertOverlap ctx) with
        | error e => simp only [hrej, reduceCtorEq] at h
        | ok r =>
          obtain ⟨r, w₁⟩ := r
          have hkeep := rejectOverlap_keeps hrest₁ hrej
          have hsub : w₁.rest ⊆ right :: next := hrest₁ ▸ hkeep.rest
          have halert := alertOverlap_count ctx w₀ hmet hsub
          rw [hrej] at h
          cases r with
          | again =>
            have hstep := ih _ h
            have hpm : partMet c w₁.rest ≤ partMet c (right :: next) := partMet_mono hsub
            rw [hkeep.count, hkeep.alerted] at hstep
            exact ⟨halert.1.trans hstep.1, by omega⟩
          | leave addthis =>
            cases h
            rw [hkeep.count]
            exact ⟨halert.1, by omega⟩

variable (ctx) in
theorem met_split {rest rest' : List Frag3Frag}
    (h : ∀ n ∈ rest', n ∈ rest ∨ n.offset = c.fragEnd) :
    partMet c rest' ≤ partMet c rest ∧ fullMet ctx c rest' ≤ fullMet ctx c rest := by
  have hany : ∀ f : Frag3Frag → Bool, (∀ n, f n = true → n.offset < c.fragEnd) →
      (rest'.any f).toNat ≤ (rest.any f).toNat := by
    intro f hf
    cases hl : rest'.any f with
    | false => exact Nat.zero_le _
    | true =>
      obtain ⟨n, hn, hfn⟩ := List.any_eq_true.1 hl
      have hlt := hf n hfn
      rcases h n hn with hn | hn
      · rw [List.any_eq_true.2 ⟨n, hn, hfn⟩]
      · omega
  refine ⟨hany _ fun n hn => (of_decide_eq_true hn).1, ?_⟩
  unfold fullMet
  cases ctx.detectAnomalies with
  | false => exact le_rfl
  | true => exact hany _ fun n hn => (of_decide_eq_true hn).1

/-! ### One call on two trackers -/

/-- The test of the overlap limit. -/
def LimitHit (ctx : Frag3Context) (count : ℕ) : Prop :=
  ctx.overlapLimit ≠ 0 ∧ count ≥ ctx.overlapLimit

/-- Trackers that have counted `a` and `b` overlaps are told alike about the limit while they
meet `met` more. -/
def ToldAlike (ctx : Frag3Context) (met a b : ℕ) : Prop :=
  ctx.overlapLimit = 0 ∨ a = b ∨ (ctx.overlapLimit ≤ a ∧ ctx.overlapLimit ≤ b) ∨
    (a + met < ctx.overlapLimit ∧ b + met < ctx.overlapLimit)

theorem ToldAlike.limitHit {met a b k : ℕ} (h : ToldAlike ctx met a b) (hk : k ≤ met) :
    LimitHit ctx (a + k) ↔ LimitHit ctx (b + k) := by
  unfold ToldAlike at h
  unfold LimitHit
  omega

/-- Two results that differ in the counts only. -/
def Lifted (a b : ℕ) (r r' : InsertRet × Walk) : Prop :=
  ∃ (ret : InsertRet) (w : Walk), r = (ret, w.addOverlaps a) ∧ r' = (ret, w.addOverlaps b)

theorem finishInsert_addOverlaps {a b : ℕ}
    (h : ∀ k ≤ partMet c w.rest + (if w.alertedOverlap then 0 else fullMet ctx c w.rest),
      LimitHit ctx (w.ft.overlapCount + k + a) ↔ LimitHit ctx (w.ft.overlapCount + k + b)) :
    Lifted a b (finishInsert env ctx p c (w.addOverlaps a))
      (finishInsert env ctx p c (w.addOverlaps b)) := by
  have hrest : ∀ n, (w.addOverlaps n).rest = w.rest := fun _ => rfl
  unfold finishInsert
  by_cases hsnap : p.ipFragLen > env.pktSnaplen
  · rw [if_pos hsnap, if_pos hsnap]
    exact ⟨.failed, w, rfl, rfl⟩
  rw [if_neg hsnap, if_neg hsnap, hrest, hrest, rightLoop_addOverlaps, rightLoop_addOverlaps]
  cases hloop : rightLoop env ctx p c (2 * w.rest.length + 1) w with
  | error e => exact ⟨e.1, e.2, rfl, rfl⟩
  | ok r =>
    obtain ⟨addthis, w'⟩ := r
    obtain ⟨hge, hle⟩ := rightLoop_count env ctx p c _ w hloop
    have hhit : (ctx.overlapLimit ≠ 0 ∧ w'.ft.overlapCount + a ≥ ctx.overlapLimit) ↔
        (ctx.overlapLimit ≠ 0 ∧ w'.ft.overlapCount + b ≥ ctx.overlapLimit) := by
      have hk := h (w'.ft.overlapCount - w.ft.overlapCount) (by omega)
      rwa [Nat.add_sub_of_le hge] at hk
    have hcount : ∀ n, (w'.addOverlaps n).ft.overlapCount = w'.ft.overlapCount + n := fun _ => rfl
    dsimp only [liftOverlaps, Prod.map]
    rw [hcount, hcount]
    by_cases hlimit : ctx.overlapLimit ≠ 0 ∧ w'.ft.overlapCount + a ≥ ctx.overlapLimit
    · rw [if_pos hlimit, if_pos (hhit.1 hlimit)]
      exact ⟨.overlapLimit, w', rfl, rfl⟩
    rw [if_neg hlimit, if_neg (mt hhit.2 hlimit), addFragNode_addOverlaps, addFragNode_addOverlaps]
    cases addthis with
    | false => exact ⟨.ok, w', rfl, rfl⟩
    | true =>
      cases addFragNode env p c c.lastfrag w' with
      | error e => exact ⟨e.1, e.2, rfl, rfl⟩
      | ok r => exact ⟨.ok, r.2, rfl, rfl⟩

/-- The overlaps that the cut fragment can meet in a list. -/
def overlapsMet (ctx : Frag3Context) (c : Cut) (l : List Frag3Frag) : ℕ :=
  leftMet c (findPlace c.fragOffset [] l).1 + partMet c (findPlace c.fragOffset [] l).2 +
    fullMet ctx c (findPlace c.fragOffset [] l).2

variable (env) in
/-- The list surgery on two trackers that are told alike. -/
theorem insertCut_addOverlaps {a b : ℕ} (hend : u16 (c.fragOffset + c.len) = c.fragEnd)
    (h : ToldAlike ctx (overlapsMet ctx c ft.fraglist) (ft.overlapCount + a) (ft.overlapCount + b)) :
    Lifted a b (insertCut env ctx p c (ft.addOverlaps a))
      (insertCut env ctx p c (ft.addOverlaps b)) := by
  unfold insertCut
  have hlist : ∀ n, (ft.addOverlaps n).fraglist = ft.fraglist := fun _ => rfl
  rw [hlist, hlist]
  unfold overlapsMet at h
  generalize findPlace c.fragOffset [] ft.fraglist = place at h
  obtain ⟨before, rest⟩ := place
  dsimp only at h ⊢
  have hwalk : ∀ n, ({ ft := ft.addOverlaps n, before := before, rest := rest,
                       fragOffset := c.fragOffset } : Walk) =
      ({ ft := ft, before := before, rest := rest, fragOffset := c.fragOffset } : Walk).addOverlaps
        n := fun _ => rfl
  rw [hwalk, hwalk, leftOverlap_addOverlaps, leftOverlap_addOverlaps]
  cases hleft : leftOverlap env p c { ft := ft, before := before, rest := rest,
                                      fragOffset := c.fragOffset } with
  | error e => exact ⟨e.1, e.2, rfl, rfl⟩
  | ok w =>
    have hsplit := leftOverlap_split hend rfl hleft
    have hcount := hsplit.count
    have halerted := hsplit.alerted
    obtain ⟨hpart, hfull⟩ := met_split ctx hsplit.mem
    dsimp only at hcount halerted hpart hfull
    refine finishInsert_addOverlaps fun k hk => ?_
    rw [halerted] at hk
    have hhit := h.limitHit (k := leftMet c before + k) (by rw [if_neg Bool.false_ne_true] at hk; omega)
    rw [hcount]
    rwa [show ft.overlapCount + leftMet c before + k + a =
        ft.overlapCount + a + (leftMet c before + k) by omega,
      show ft.overlapCount + leftMet c before + k + b =
        ft.overlapCount + b + (leftMet c before + k) by omega]

/-- The overlaps that a fragment can meet in a tracker. -/
def FragTracker.overlapsMet (ft : FragTracker) (ctx : Frag3Context) (p : Packet) : ℕ :=
  let (ft, firstLastOk) := frag3CheckFirstLast p (frag3Expire ctx p ft)
  match cutFragment p firstLastOk ft with
  | .error _ => 0
  | .ok (c, ft) => Frag3.overlapsMet ctx c ft.fraglist

theorem overlapsMet_addOverlaps (ft : FragTracker) (ctx : Frag3Context) (p : Packet) (n : ℕ) :
    (ft.addOverlaps n).overlapsMet ctx p = ft.overlapsMet ctx p := by
  unfold FragTracker.overlapsMet
  rw [frag3Expire_addOverlaps, frag3CheckFirstLast_addOverlaps]
  dsimp only [Prod.map, id]
  rw [cutFragment_addOverlaps]
  cases cutFragment p _ (frag3CheckFirstLast p (frag3Expire ctx p ft)).1 <;> rfl

/-- `Frag3Insert` on two trackers that are told alike. -/
theorem frag3Insert_addOverlaps (env : Env) {a b : ℕ}
    (h : ToldAlike ctx (ft.overlapsMet ctx p) (ft.overlapCount + a) (ft.overlapCount + b)) :
    ∃ (ret : InsertRet) (ft' : FragTracker),
      frag3Insert env ctx p (ft.addOverlaps a) = (ret, ft'.addOverlaps a) ∧
      frag3Insert env ctx p (ft.addOverlaps b) = (ret, ft'.addOverlaps b) := by
  have hexpire : (frag3Expire ctx p ft).overlapCount = ft.overlapCount := by
    unfold frag3Expire
    split_ifs <;> rfl
  unfold FragTracker.overlapsMet at h
  unfold frag3Insert
  rw [frag3Expire_addOverlaps, frag3Expire_addOverlaps, frag3CheckFirstLast_addOverlaps,
    frag3CheckFirstLast_addOverlaps]
  have hfirst : (frag3CheckFirstLast p (frag3Expire ctx p ft)).1.overlapCount =
      (frag3Expire ctx p ft).overlapCount := by
    obtain ⟨_, _, _, heq⟩ := frag3CheckFirstLast_frame p (frag3Expire ctx p ft)
    rw [heq]
  dsimp only [Prod.map, id] at h ⊢
  rw [cutFragment_addOverlaps, cutFragment_addOverlaps]
  cases hcut : cutFragment p (frag3CheckFirstLast p (frag3Expire ctx p ft)).2
      (frag3CheckFirstLast p (frag3Expire ctx p ft)).1 with
  | error e => exact ⟨e.1, e.2, rfl, rfl⟩
  | ok r =>
    obtain ⟨c, ft'⟩ := r
    obtain ⟨hend, hcount⟩ := cutFragment_end hcut
    rw [hcut] at h
    dsimp only [liftCut] at h ⊢
    rw [← hexpire, ← hfirst, ← hcount] at h
    obtain ⟨ret, w, heq, heq'⟩ := insertCut_addOverlaps env (p := p) hend h
    rw [heq, heq']
    exact ⟨ret, w.relink, rfl, rfl⟩

/-! ### Runs -/

/-- Two trackers that differ in the overlaps they have counted. -/
def Alike (ft ft' : FragTracker) : Prop :=
  ∃ (base : FragTracker) (a b : ℕ), ft = base.addOverlaps a ∧ ft' = base.addOverlaps b

theorem Alike.insert {ft ft' : FragTracker} (h : Alike ft ft') (env : Env)
    (ht : ToldAlike ctx (ft.overlapsMet ctx p) ft.overlapCount ft'.overlapCount) :
    (frag3Insert env ctx p ft).1 = (frag3Insert env ctx p ft').1 ∧
      Alike (frag3Insert env ctx p ft).2 (frag3Insert env ctx p ft').2 := by
  obtain ⟨base, a, b, rfl, rfl⟩ := h
  rw [overlapsMet_addOverlaps] at ht
  obtain ⟨ret, ft', heq, heq'⟩ := frag3Insert_addOverlaps env ht
  rw [heq, heq']
  exact ⟨rfl, ft', a, b, rfl, rfl⟩

/-- What is seen of each call: its answer, whether the datagram is complete, and the bytes that a
rebuild would give. -/
def observe (maxDsize : ℕ) :
    List (Env × Frag3Context × Packet) → FragTracker → List (InsertRet × Bool × (ℕ → Option UInt8))
  | [], _ => []
  | (env, ctx, p) :: calls, ft =>
    let r := frag3Insert env ctx p ft
    (r.1, frag3IsComplete r.2, frag3Rebuild maxDsize r.2) :: observe maxDsize calls r.2

/-- At every call of two runs the overlap limit is told alike. -/
def ToldAlikeAlong : List (Env × Frag3Context × Packet) → FragTracker → FragTracker → Prop
  | [], _, _ => True
  | (env, ctx, p) :: calls, ft, ft' =>
    ToldAlike ctx (ft.overlapsMet ctx p) ft.overlapCount ft'.overlapCount ∧
      ToldAlikeAlong calls (frag3Insert env ctx p ft).2 (frag3Insert env ctx p ft').2

theorem Alike.observe (maxDsize : ℕ) (calls : List (Env × Frag3Context × Packet)) :
    ∀ {ft ft' : FragTracker}, Alike ft ft' → ToldAlikeAlong calls ft ft' →
      observe maxDsize calls ft = observe maxDsize calls ft' := by
  induction calls with
  | nil => exact fun _ _ => rfl
  | cons call calls ih =>
    intro ft ft' h ht
    obtain ⟨env, ctx, p⟩ := call
    obtain ⟨hret, halike⟩ := h.insert env ht.1
    have hseen : ∀ {ft ft' : FragTracker}, Alike ft ft' →
        frag3IsComplete ft = frag3IsComplete ft' ∧
          frag3Rebuild maxDsize ft = frag3Rebuild maxDsize ft' := by
      rintro _ _ ⟨base, a, b, rfl, rfl⟩
      exact ⟨rfl, rfl⟩
    simp only [Frag3.observe]
    rw [hret, (hseen halike).1, (hseen halike).2, ih halike ht.2]

theorem observe_congr {env : Env} {calls : List (Env × Frag3Context × Packet)} {ft ft' : FragTracker}
    (h : frag3Expire ctx p ft = frag3Expire ctx p ft') (maxDsize : ℕ) :
    observe maxDsize ((env, ctx, p) :: calls) ft =
      observe maxDsize ((env, ctx, p) :: calls) ft' := by
  have hinsert : frag3Insert env ctx p ft = frag3Insert env ctx p ft' := by
    unfold frag3Insert
    rw [h]
  simp only [observe, hinsert]

/-- **Nothing but the overlap count outlives a timeout**: two trackers of one policy that both
time out at a fragment, whatever they had received, answer it and every later call alike, as long
as the overlap limit is told alike. -/
theorem timeout_forgets (maxDsize : ℕ) {env : Env} {ctx : Frag3Context} {p : Packet}
    {calls : List (Env × Frag3Context × Packet)} {ft ft' : FragTracker}
    (hpolicy : ft.fragPolicy = ft'.fragPolicy) (h : checkTimeout p.ts ft.fragTime ctx = true)
    (h' : checkTimeout p.ts ft'.fragTime ctx = true)
    (ht : ToldAlikeAlong ((env, ctx, p) :: calls) ft ft') :
    observe maxDsize ((env, ctx, p) :: calls) ft = observe maxDsize ((env, ctx, p) :: calls) ft' := by
  -- both go on from the same empty tracker, but for the count
  let base : FragTracker := { fragTime := ft.fragTime, fragPolicy := ft.fragPolicy }
  have hbase : ∀ n, frag3Expire ctx p (base.addOverlaps n) =
      { fragTime := p.ts, fragPolicy := ft.fragPolicy, overlapCount := n } := by
    intro n
    have hn : 0 + n = n := Nat.zero_add n
    rw [frag3Expire, if_pos (show checkTimeout p.ts (base.addOverlaps n).fragTime ctx = true from h)]
    simp only [FragTracker.addOverlaps, base, hn]
  have heq : frag3Expire ctx p ft = frag3Expire ctx p (base.addOverlaps ft.overlapCount) := by
    rw [hbase, frag3Expire, if_pos h]
  have heq' : frag3Expire ctx p ft' = frag3Expire ctx p (base.addOverlaps ft'.overlapCount) := by
    rw [hbase, frag3Expire, if_pos h', hpolicy]
  have hinsert : ∀ {ft₁ ft₂ : FragTracker}, frag3Expire ctx p ft₁ = frag3Expire ctx p ft₂ →
      frag3Insert env ctx p ft₁ = frag3Insert env ctx p ft₂ ∧
        ft₁.overlapsMet ctx p = ft₂.overlapsMet ctx p := by
    intro ft₁ ft₂ hft
    unfold frag3Insert FragTracker.overlapsMet
    rw [hft]
    exact ⟨rfl, rfl⟩
  obtain ⟨hhead, htail⟩ := ht
  rw [observe_congr heq, observe_congr heq']
  refine Alike.observe maxDsize _ ⟨base, _, _, rfl, rfl⟩ ⟨?_, ?_⟩
  · rw [← (hinsert heq).2]
    simpa [base, FragTracker.addOverlaps] using hhead
  · rwa [← (hinsert heq).1, ← (hinsert heq').1]

/-- A fragment that arrives after the timeout. -/
def late : Packet := { zeros 0 8 true with ts := ⟨100, 0⟩ }

theorem timeout_forgets_overlap : ∃ ft ft',
    Run .first (fun _ _ => True) (fun _ _ _ _ => True) [zeros 1 16 true, zeros 0 16 true] ft ∧
    Run .first (fun _ _ => True) (fun _ _ _ _ => True) [zeros 0 16 true] ft' ∧
    observe 65535 [({}, { overlapLimit := 4 }, late)] ft =
      observe 65535 [({}, { overlapLimit := 4 }, late)] ft' :=
  ⟨_, _, .insert {} { overlapLimit := 4 } (.new {} rfl trivial) trivial, .new {} rfl trivial,
    timeout_forgets 65535 rfl (by decide) (by decide)
      ⟨.inr (.inr (.inr (by decide))), trivial⟩⟩

/-- The overlaps of a datagram that has timed out count against the next one. -/
theorem timeout_keeps_overlaps : ∃ ft ft',
    Run .first (fun _ _ => True) (fun _ _ _ _ => True) [zeros 1 16 true, zeros 0 16 true] ft ∧
    Run .first (fun _ _ => True) (fun _ _ _ _ => True) [zeros 0 16 true] ft' ∧
    checkTimeout late.ts ft.fragTime { overlapLimit := 1 } = true ∧
    checkTimeout late.ts ft'.fragTime { overlapLimit := 1 } = true ∧
    (observe 65535 [({}, { overlapLimit := 1 }, late)] ft).map Prod.fst = [.overlapLimit] ∧
    (observe 65535 [({}, { overlapLimit := 1 }, late)] ft').map Prod.fst = [.ok] :=
  ⟨_, _, .insert {} { overlapLimit := 1 } (.new {} rfl trivial) trivial, .new {} rfl trivial,
    by decide, by decide, by decide, by decide⟩

end Snort.Frag3
