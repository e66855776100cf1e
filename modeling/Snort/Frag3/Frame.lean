import Snort.Frag3.RightSide

/-!
# What the steps of `Frag3Insert` leave alone

* `Keeps`: a round of the right-side loop keeps the counters it has not touched and only goes
  forward in the list;
* `Split`: the left side adds at most one fragment, at the end of the arriving one;
* `Counts`, `Marks`: the list surgery changes counters only, and `FRAG_BAD` with an attack.
-/

namespace Snort.Frag3

open CInt

variable {env : Env} {ctx : Frag3Context} {p : Packet} {c : Cut} {w : Walk}

/-! ### One round of the loop -/

/-- What a round of the loop leaves alone. -/
structure Keeps (w w' : Walk) : Prop where
  count : w'.ft.overlapCount = w.ft.overlapCount
  alerted : w'.alertedOverlap = w.alertedOverlap
  rest : w'.rest ⊆ w.rest

theorem nextGap_suffix (fragEnd : ℕ) (rest : List Frag3Frag) :
    ∀ (currEnd : ℕ) (before mid : List Frag3Frag),
      (nextGap fragEnd currEnd before mid rest).2.2.2 <:+ rest := by
  induction rest with
  | nil => exact fun _ _ _ => List.suffix_rfl
  | cons right next ih =>
    intro currEnd before mid
    rw [nextGap]
    split_ifs
    · exact (ih _ _ _).trans (List.suffix_cons right next)
    · exact List.suffix_rfl

theorem addFragNode_keeps {lastfrag : Bool} {n : Frag3Frag} {w' : Walk}
    (h : addFragNode env p c lastfrag w = .ok (n, w')) : Keeps w w' := by
  unfold addFragNode at h
  dsimp only at h
  split_ifs at h
  cases h
  exact ⟨rfl, rfl, List.Subset.refl _⟩

theorem rejectTrim_keeps {right : Frag3Frag} {next : List Frag3Frag} (h : w.rest = right :: next) :
    Keeps w (rejectTrim c right next w) := by
  unfold rejectTrim
  split_ifs
  · exact ⟨rfl, rfl, h ▸ List.subset_cons_self right next⟩
  · exact ⟨rfl, rfl, List.Subset.refl _⟩

theorem afterChunk_keeps (newfrag : Frag3Frag) : Keeps w (afterChunk c newfrag w).2 := by
  have hsub := (nextGap_suffix c.fragEnd w.rest (u16 newfrag.stop) w.before w.mid).subset
  unfold afterChunk
  dsimp only
  split_ifs <;> exact ⟨rfl, rfl, hsub⟩

theorem Keeps.trans {w₁ w₂ w₃ : Walk} (h : Keeps w₁ w₂) (h' : Keeps w₂ w₃) : Keeps w₁ w₃ :=
  ⟨h'.count.trans h.count, h'.alerted.trans h.alerted, List.Subset.trans h'.rest h.rest⟩

theorem rejectOverlap_keeps {right : Frag3Frag} {next : List Frag3Frag} {r : ChunkNext} {w' : Walk}
    (hrest : w.rest = right :: next) (h : rejectOverlap env p c right next w = .ok (r, w')) :
    Keeps w w' := by
  have htrim := rejectTrim_keeps (c := c) hrest
  unfold rejectOverlap at h
  dsimp only at h
  split_ifs at h
  cases hadd : addFragNode env p c false (rejectTrim c right next w) with
  | error e => simp only [hadd, reduceCtorEq] at h
  | ok n =>
    simp only [hadd, Except.ok.injEq] at h
    rw [show w' = (afterChunk c n.1 n.2).2 from congrArg Prod.snd h.symm]
    exact (htrim.trans (addFragNode_keeps hadd)).trans (afterChunk_keeps n.1)

/-! ### The left side -/

/-- The fragment before the new one reaches into it. -/
def leftMet (c : Cut) (before : List Frag3Frag) : ℕ :=
  (before.head?.any fun left => decide (c.fragOffset < left.stop)).toNat

/-- What the left side leaves: `k` overlaps counted, and at most a new fragment, at the end of the
arriving one. -/
structure Split (c : Cut) (k : ℕ) (w w' : Walk) : Prop where
  count : w'.ft.overlapCount = w.ft.overlapCount + k
  alerted : w'.alertedOverlap = w.alertedOverlap
  rest : w'.rest = w.rest ∨ ∃ n : Frag3Frag, n.offset = c.fragEnd ∧ w'.rest = n :: w.rest

theorem Split.mem {k : ℕ} {w' : Walk} (h : Split c k w w') :
    ∀ n ∈ w'.rest, n ∈ w.rest ∨ n.offset = c.fragEnd := by
  intro n hn
  obtain heq | ⟨m, hm, heq⟩ := h.rest
  · exact Or.inl (heq ▸ hn)
  · rw [heq] at hn
    rcases List.mem_cons.1 hn with rfl | hn
    · exact Or.inr hm
    · exact Or.inl hn

theorem Split.length_le {k : ℕ} {w' : Walk} (h : Split c k w w') :
    w'.rest.length ≤ w.rest.length + 1 := by
  obtain heq | ⟨m, -, heq⟩ := h.rest
  · rw [heq]
    exact Nat.le_succ _
  · rw [heq, List.length_cons]

theorem leftOverlapLast_split (left : Frag3Frag) (bs : List Frag3Frag) (w : Walk) :
    Split c 0 w (leftOverlapLast left bs w) := by
  unfold leftOverlapLast
  split_ifs <;> exact ⟨rfl, rfl, Or.inl rfl⟩

theorem leftOverlapLast_rest (left : Frag3Frag) (bs : List Frag3Frag) (w : Walk) :
    (leftOverlapLast left bs w).rest = w.rest := by
  unfold leftOverlapLast
  split_ifs <;> rfl

theorem truncLeft_split {overlap : ℤ} {left : Frag3Frag} {bs : List Frag3Frag} {w' : Walk}
    (hend : u16 (w.fragOffset + c.len) = c.fragEnd)
    (h : truncLeft env c overlap left bs w = .ok w') : Split c 0 w w' := by
  unfold truncLeft at h
  by_cases hbeyond : left.offset < w.fragOffset ∧ (left.stop : ℤ) > w.fragOffset + c.len
  · rw [if_pos hbeyond] at h
    by_cases hmem : env.fragNode w.ft.ordinal = true
    · rw [dupFragNode, if_pos hmem] at h
      obtain rfl := Except.ok.inj h
      have hrest := fun w' : Walk => leftOverlapLast_rest
        { left with size := u16 (left.size - i16 overlap) } bs w'
      have hsplit := fun w' : Walk => leftOverlapLast_split (c := c)
        { left with size := u16 (left.size - i16 overlap) } bs w'
      exact ⟨(hsplit _).count, (hsplit _).alerted, Or.inr ⟨_, hend, hrest _⟩⟩
    · rw [dupFragNode, if_neg hmem] at h
      cases h
  · rw [if_neg hbeyond] at h
    obtain rfl := Except.ok.inj h
    have hsplit := leftOverlapLast_split (c := c)
      { left with size := u16 (left.size - i16 overlap) } bs (w.subBytes (i16 overlap))
    exact ⟨hsplit.count, hsplit.alerted, hsplit.rest⟩

theorem leftSwitch_split {overlap : ℤ} {left : Frag3Frag} {bs : List Frag3Frag} {w' : Walk}
    (hend : u16 (w.fragOffset + c.len) = c.fragEnd)
    (h : leftSwitch env c overlap left bs w = .ok w') : Split c 0 w w' := by
  unfold leftSwitch at h
  dsimp only at h
  cases hpol : w.ft.fragPolicy <;> rw [hpol] at h <;> dsimp only at h
  case last => exact truncLeft_split hend h
  case bsdRight =>
    split_ifs at h
    · obtain rfl := Except.ok.inj h
      have hsplit := leftOverlapLast_split (c := c) left bs (w.slideBy overlap)
      exact ⟨hsplit.count, hsplit.alerted, hsplit.rest⟩
    · exact truncLeft_split hend h
  all_goals
    split_ifs at h
    obtain rfl := Except.ok.inj h
    exact ⟨rfl, rfl, Or.inl rfl⟩

/-- The left side counts the overlap that is met there. -/
theorem leftOverlap_split {w' : Walk} (hend : u16 (w.fragOffset + c.len) = c.fragEnd)
    (hoffset : w.fragOffset = c.fragOffset) (h : leftOverlap env p c w = .ok w') :
    Split c (leftMet c w.before) w w' := by
  unfold leftOverlap at h
  cases hbefore : w.before with
  | nil =>
    rw [hbefore] at h
    obtain rfl := Except.ok.inj h
    exact ⟨rfl, rfl, Or.inl rfl⟩
  | cons left bs =>
    rw [hbefore] at h
    dsimp only at h
    have hmet : leftMet c (left :: bs) = if (left.stop : ℤ) - w.fragOffset > 0 then 1 else 0 := by
      simp only [leftMet, List.head?_cons, Option.any_some, hoffset]
      split_ifs with hover
      · rw [decide_eq_true (by omega), Bool.toNat_true]
      · rw [decide_eq_false (by omega), Bool.toNat_false]
    rw [hmet]
    by_cases hover : (left.stop : ℤ) - w.fragOffset > 0
    · rw [if_pos hover] at h ⊢
      by_cases htear : teardrop p c w.countOverlap.ft = true
      · rw [if_pos htear] at h
        cases h
      rw [if_neg htear] at h
      cases hsw : leftSwitch env c (left.stop - w.fragOffset) left bs w.countOverlap with
      | error e => simp only [hsw, reduceCtorEq] at h
      | ok w₁ =>
        have hsplit := leftSwitch_split (w := w.countOverlap) hend hsw
        rw [hsw] at h
        dsimp only at h
        split_ifs at h
        obtain rfl := Except.ok.inj h
        exact ⟨hsplit.count, hsplit.alerted, hsplit.rest⟩
    · rw [if_neg hover] at h ⊢
      obtain rfl := Except.ok.inj h
      exact ⟨rfl, rfl, Or.inl rfl⟩

/-! ### Counters and the mark -/

/-- Only counters of the tracker have changed. -/
def Counts (ft ft' : FragTracker) : Prop :=
  ∃ ordinal bytes count,
    ft' = { ft with ordinal := ordinal, fragBytes := bytes, overlapCount := count }

theorem Counts.refl (ft : FragTracker) : Counts ft ft := ⟨_, _, _, rfl⟩

theorem Counts.trans {ft₁ ft₂ ft₃ : FragTracker} (h : Counts ft₁ ft₂) (h' : Counts ft₂ ft₃) :
    Counts ft₁ ft₃ := by
  obtain ⟨_, _, _, rfl⟩ := h
  obtain ⟨_, _, _, rfl⟩ := h'
  exact ⟨_, _, _, rfl⟩

theorem Counts.policy {ft ft' : FragTracker} (h : Counts ft ft') : ft'.fragPolicy = ft.fragPolicy := by
  obtain ⟨_, _, _, rfl⟩ := h
  rfl

/-- A returning call: only counters have changed, and with an attack the mark `FRAG_BAD`. -/
def Marks (ft : FragTracker) (r : InsertRet × Walk) : Prop :=
  Counts ft r.2.ft ∨ (r.1 = .attack ∧ Counts { ft with bad := true } r.2.ft)

/-- A step that returns or leaves a walk. -/
def Leaves {α : Type} (ft : FragTracker) (walk : α → Walk) :
    Except (InsertRet × Walk) α → Prop
  | .error e => Marks ft e
  | .ok a => Counts ft (walk a).ft

theorem Marks.of_counts {ft ft' : FragTracker} {r : InsertRet × Walk} (h : Counts ft ft')
    (h' : Marks ft' r) : Marks ft r := by
  obtain ⟨_, _, _, rfl⟩ := h
  rcases h' with h' | ⟨hret, _, _, _, h'⟩
  · exact Or.inl (Counts.trans ⟨_, _, _, rfl⟩ h')
  · exact Or.inr ⟨hret, _, _, _, h'⟩

theorem Leaves.of_counts {α : Type} {ft ft' : FragTracker} {walk : α → Walk}
    {r : Except (InsertRet × Walk) α} (h : Counts ft ft') (h' : Leaves ft' walk r) :
    Leaves ft walk r := by
  cases r with
  | error e => exact Marks.of_counts h h'
  | ok a => exact h.trans h'

variable (env) in
theorem addFragNode_leaves (lastfrag : Bool) (w : Walk) :
    Leaves w.ft Prod.snd (addFragNode env p c lastfrag w) := by
  unfold addFragNode
  dsimp only
  split_ifs
  · exact Or.inl (Counts.refl _)
  · exact ⟨_, _, _, rfl⟩
  · exact Or.inl (Counts.refl _)

variable (env) in
theorem dupFragNode_leaves (left : Frag3Frag) (w : Walk) :
    Leaves w.ft Prod.snd (dupFragNode env left w) := by
  unfold dupFragNode
  split_ifs
  · exact ⟨_, _, _, rfl⟩
  · exact Or.inl (Counts.refl _)

theorem leftOverlapLast_counts (left : Frag3Frag) (bs : List Frag3Frag) (w : Walk) :
    Counts w.ft (leftOverlapLast left bs w).ft := by
  unfold leftOverlapLast
  split_ifs <;> exact Counts.refl _

theorem subBytes_counts (w : Walk) (n : ℤ) : Counts w.ft (w.subBytes n).ft := ⟨_, _, _, rfl⟩

variable (env) in
theorem truncLeft_leaves (overlap : ℤ) (left : Frag3Frag) (bs : List Frag3Frag) (w : Walk) :
    Leaves w.ft id (truncLeft env c overlap left bs w) := by
  have hdup := dupFragNode_leaves env left w
  unfold truncLeft
  by_cases hbeyond : left.offset < w.fragOffset ∧ (left.stop : ℤ) > w.fragOffset + c.len
  · rw [if_pos hbeyond]
    cases h : dupFragNode env left w with
    | error e =>
      rw [h] at hdup
      exact hdup
    | ok r =>
      rw [h] at hdup
      exact Counts.trans hdup ((subBytes_counts r.2 _).trans
        ((subBytes_counts _ _).trans (leftOverlapLast_counts _ bs _)))
  · rw [if_neg hbeyond]
    exact (subBytes_counts w _).trans (leftOverlapLast_counts _ bs _)

variable (env) in
theorem leftSwitch_leaves (overlap : ℤ) (left : Frag3Frag) (bs : List Frag3Frag) (w : Walk) :
    Leaves w.ft id (leftSwitch env c overlap left bs w) := by
  have htrunc := truncLeft_leaves env (c := c) overlap left bs w
  unfold leftSwitch
  cases w.ft.fragPolicy with
  | last => exact htrunc
  | bsdRight =>
    dsimp only
    split_ifs
    · exact leftOverlapLast_counts left bs (w.slideBy overlap)
    · exact htrunc
  | first | linux | bsd | windows | solaris =>
    dsimp only
    split_ifs
    · exact Or.inl (Counts.refl _)
    · exact Counts.refl _

variable (env) in
theorem leftOverlap_leaves (w : Walk) : Leaves w.ft id (leftOverlap env p c w) := by
  unfold leftOverlap
  cases w.before with
  | nil => exact Counts.refl _
  | cons left bs =>
    dsimp only
    have hcount : Counts w.ft w.countOverlap.ft := ⟨_, _, _, rfl⟩
    have hswitch := leftSwitch_leaves env (c := c) (left.stop - w.fragOffset) left bs
      w.countOverlap
    by_cases hover : (left.stop : ℤ) - w.fragOffset > 0
    · rw [if_pos hover]
      by_cases htear : teardrop p c w.countOverlap.ft = true
      · rw [if_pos htear]
        exact Or.inr ⟨rfl, _, _, _, rfl⟩
      rw [if_neg htear]
      cases h : leftSwitch env c (left.stop - w.fragOffset) left bs w.countOverlap with
      | error e =>
        rw [h] at hswitch
        exact Marks.of_counts hcount hswitch
      | ok w' =>
        rw [h] at hswitch
        dsimp only
        split_ifs
        · exact Or.inl (hcount.trans hswitch)
        · exact hcount.trans hswitch
    · rw [if_neg hover]
      exact Counts.refl _

variable (env) in
theorem rejectOverlap_leaves (right : Frag3Frag) (next : List Frag3Frag) (w : Walk) :
    Leaves w.ft Prod.snd (rejectOverlap env p c right next w) := by
  have htrim : (rejectTrim c right next w).ft = w.ft := by
    unfold rejectTrim
    split_ifs <;> rfl
  have hchunk : ∀ (n : Frag3Frag) (w : Walk), (afterChunk c n w).2.ft = w.ft := by
    intro n w
    unfold afterChunk
    dsimp only
    split_ifs <;> rfl
  unfold rejectOverlap
  dsimp only
  have hadd := addFragNode_leaves env (p := p) (c := c) false (rejectTrim c right next w)
  rw [htrim] at hadd
  split_ifs
  · exact Or.inl (htrim ▸ Counts.refl _)
  · cases h : addFragNode env p c false (rejectTrim c right next w) with
    | error e =>
      rw [h] at hadd
      exact hadd
    | ok r =>
      rw [h] at hadd
      have hsame : Counts w.ft r.2.ft := hadd
      rw [← hchunk r.1 r.2] at hsame
      exact hsame

theorem partialOverlap_counts (right : Frag3Frag) (next : List Frag3Frag) (overlap : ℤ)
    (w : Walk) : Counts w.ft (partialOverlap right next overlap w).ft := by
  have htrunc : Counts w.ft (truncRight right next overlap w).ft := by
    unfold truncRight
    dsimp only
    split_ifs <;> exact ⟨_, _, _, rfl⟩
  unfold partialOverlap
  split
  · exact htrunc
  · exact htrunc
  · split_ifs
    · exact Counts.refl _
    · exact htrunc
  all_goals exact Counts.refl _

theorem alertOverlap_counts (ctx : Frag3Context) (w : Walk) :
    Counts w.ft (w.alertOverlap ctx).ft := by
  unfold Walk.alertOverlap
  split_ifs
  · exact ⟨_, _, _, rfl⟩
  · exact Counts.refl _

theorem rightLoop_leaves (env : Env) (ctx : Frag3Context) (p : Packet) (c : Cut) :
    ∀ (fuel : ℕ) (w : Walk), Leaves w.ft Prod.snd (rightLoop env ctx p c fuel w) := by
  intro fuel
  induction fuel with
  | zero => exact fun w => Counts.refl _
  | succ fuel ih =>
    intro w
    cases hrest : w.rest with
    | nil =>
      rw [rightLoop_nil hrest]
      exact Counts.refl _
    | cons right next =>
      rw [rightLoop_round hrest]
      have halert := alertOverlap_counts ctx ({ w with trunc := 0 } : Walk)
      by_cases hstart : right.offset < c.fragEnd
      swap
      · rw [if_neg hstart]
        exact Counts.refl _
      rw [if_pos hstart]
      by_cases hattack : (c.fragEnd : ℤ) - right.offset ≠ 0 ∧ teardrop p c w.ft
      · rw [if_pos hattack]
        exact Or.inr ⟨rfl, _, _, _, rfl⟩
      rw [if_neg hattack]
      by_cases hpart : (c.fragEnd : ℤ) - right.offset < right.size
      · rw [if_pos hpart]
        exact Counts.trans ⟨_, _, _, rfl⟩ (partialOverlap_counts right next _ _)
      rw [if_neg hpart]
      cases fullAction w.ft.fragPolicy w.fragOffset c.fragEnd right with
      | dump =>
        exact Leaves.of_counts (halert.trans (subBytes_counts _ _)) (ih _)
      | reject =>
        have hrej := rejectOverlap_leaves env (p := p) (c := c) right next
          (({ w with trunc := 0 } : Walk).alertOverlap ctx)
        dsimp only
        cases h : rejectOverlap env p c right next
            (({ w with trunc := 0 } : Walk).alertOverlap ctx) with
        | error e =>
          rw [h] at hrej
          exact Marks.of_counts halert hrej
        | ok r =>
          rw [h] at hrej
          obtain ⟨_ | addthis, w'⟩ := r
          · exact Leaves.of_counts (halert.trans hrej) (ih w')
          · exact halert.trans hrej

theorem finishInsert_marks (w : Walk) : Marks w.ft (finishInsert env ctx p c w) := by
  have hloop := rightLoop_leaves env ctx p c (2 * w.rest.length + 1) w
  unfold finishInsert
  split_ifs
  · exact Or.inl (Counts.refl _)
  · cases h : rightLoop env ctx p c (2 * w.rest.length + 1) w with
    | error e =>
      rw [h] at hloop
      exact hloop
    | ok r =>
      rw [h] at hloop
      have hadd := addFragNode_leaves env (p := p) (c := c) c.lastfrag r.2
      obtain ⟨addthis, w'⟩ := r
      dsimp only at hadd ⊢
      split_ifs
      · exact Or.inl hloop
      · cases h' : addFragNode env p c c.lastfrag w' with
        | error e =>
          rw [h'] at hadd
          exact Marks.of_counts hloop hadd
        | ok r =>
          rw [h'] at hadd
          exact Or.inl (Counts.trans hloop hadd)
      · exact Or.inl hloop

variable (env ctx) in
/-- The list surgery changes counters only, and `FRAG_BAD` when it returns an attack. -/
theorem insertCut_marks (ft : FragTracker) : Marks ft (insertCut env ctx p c ft) := by
  unfold insertCut
  dsimp only
  have hleft := leftOverlap_leaves env (p := p) (c := c)
    { ft := ft, before := (findPlace c.fragOffset [] ft.fraglist).1,
      rest := (findPlace c.fragOffset [] ft.fraglist).2, fragOffset := c.fragOffset }
  cases h : leftOverlap env p c
      { ft := ft, before := (findPlace c.fragOffset [] ft.fraglist).1,
        rest := (findPlace c.fragOffset [] ft.fraglist).2, fragOffset := c.fragOffset } with
  | error e =>
    rw [h] at hleft
    exact hleft
  | ok w =>
    rw [h] at hleft
    exact Marks.of_counts hleft (finishInsert_marks w)

/-! ### The first part -/

/-- `Frag3CheckFirstLast` sets the two flags and the size. -/
theorem frag3CheckFirstLast_frame (p : Packet) (ft : FragTracker) : ∃ first last size,
    (frag3CheckFirstLast p ft).1 =
      { ft with gotFirst := first, gotLast := last, calculatedSize := size } := by
  unfold frag3CheckFirstLast
  dsimp only
  by_cases hfirst : p.mf ∧ p.fragOffset = 0
  · rw [if_pos hfirst]
    exact ⟨_, _, _, rfl⟩
  rw [if_neg hfirst]
  by_cases hlast : (!p.mf) = true ∧ p.fragOffset > 0
  · rw [if_pos hlast, apply_ite Prod.fst]
    split_ifs <;> exact ⟨_, _, _, rfl⟩
  · rw [if_neg hlast]
    exact ⟨_, _, _, rfl⟩

/-- The tracker in a result of the first part. -/
def cutTracker : Except (InsertRet × FragTracker) (Cut × FragTracker) → FragTracker
  | .error e => e.2
  | .ok r => r.2

/-- The first part sets the size and the mark. -/
theorem cutFragment_frame (p : Packet) (flo : FirstLast) (ft : FragTracker) : ∃ size bad,
    cutTracker (cutFragment p flo ft) = { ft with calculatedSize := size, bad := bad } := by
  have hrest : ∀ (c : Cut) (ft : FragTracker), ∃ size bad,
      cutTracker (if c.fragEnd = c.fragOffset then .error (.anomaly, ft)
        else if ft.calculatedSize > ipMaxpacket then .error (.anomaly, { ft with bad := true })
        else .ok (c, ft)) = { ft with calculatedSize := size, bad := bad } := by
    intro c ft
    split_ifs <;> exact ⟨_, _, rfl⟩
  unfold cutFragment
  dsimp only
  generalize (if flo = .lastOffsetAdjust then u16 ft.calculatedSize else u16 (p.fragOffset * 8)) =
    fragOffset
  generalize u16 (fragOffset + i16 p.ipFragLen) = fragEnd
  generalize u16 (p.fragOffset * 8) = origOffset
  generalize i16 p.ipFragLen = fragLength
  cases p.mf with
  | false =>
    have hnot : (!false) = true := rfl
    rw [if_pos hnot]
    by_cases hgrow : fragEnd > ft.calculatedSize ∧ flo = .lastOffsetAdjust
    · rw [if_pos hgrow]
      exact hrest _ { ft with calculatedSize := fragEnd }
    · rw [if_neg hgrow]
      exact hrest _ ft
  | true =>
    have hnot : ¬ (!true) = true := Bool.false_ne_true
    rw [if_neg hnot]
    by_cases hgrow : fragEnd / 8 * 8 > ft.calculatedSize
    · rw [if_pos hgrow]
      by_cases hlast : ft.gotLast = true
      · rw [if_pos hlast]
        exact ⟨_, _, rfl⟩
      · rw [if_neg hlast]
        exact hrest _ { ft with calculatedSize := fragEnd / 8 * 8 }
    · rw [if_neg hgrow]
      exact hrest _ ft

/-- The cut fragment ends where its length says, as a 16 bit number. -/
theorem cutFragment_end {flo : FirstLast} {ft ft' : FragTracker}
    (h : cutFragment p flo ft = .ok (c, ft')) :
    u16 (c.fragOffset + c.len) = c.fragEnd ∧ ft'.overlapCount = ft.overlapCount := by
  have hsame : ∀ (c₀ : Cut) (ft₀ : FragTracker),
      (if c₀.fragEnd = c₀.fragOffset then .error (.anomaly, ft₀)
        else if ft₀.calculatedSize > ipMaxpacket then .error (.anomaly, { ft₀ with bad := true })
        else .ok (c₀, ft₀)) = (.ok (c, ft') : Except (InsertRet × FragTracker) (Cut × FragTracker)) →
      c₀ = c ∧ ft₀ = ft' := by
    intro c₀ ft₀ h
    split_ifs at h
    exact Prod.mk.inj (Except.ok.inj h)
  unfold cutFragment at h
  dsimp only at h
  generalize (if flo = .lastOffsetAdjust then u16 ft.calculatedSize else u16 (p.fragOffset * 8)) =
    fragOffset at h
  generalize i16 p.ipFragLen = fragLength at h
  have hwrap : u16 (fragOffset + i16 (fragLength - ((u16 (fragOffset + fragLength) : ℤ) -
      (u16 (fragOffset + fragLength) / 8 * 8 : ℕ)))) = u16 (fragOffset + fragLength) / 8 * 8 := by
    unfold u16 i16
    omega
  cases hmf : p.mf with
  | false =>
    rw [hmf, if_pos (show (!false) = true from rfl)] at h
    obtain ⟨rfl, rfl⟩ := hsame _ _ h
    refine ⟨rfl, ?_⟩
    split_ifs <;> rfl
  | true =>
    rw [hmf, if_neg (show ¬ (!true) = true from Bool.false_ne_true)] at h
    by_cases hgrow : u16 (fragOffset + fragLength) / 8 * 8 > ft.calculatedSize
    · rw [if_pos hgrow] at h
      by_cases hlast : ft.gotLast = true
      · rw [if_pos hlast] at h
        cases h
      · rw [if_neg hlast] at h
        obtain ⟨rfl, rfl⟩ := hsame _ _ h
        exact ⟨hwrap, rfl⟩
    · rw [if_neg hgrow] at h
      obtain ⟨rfl, rfl⟩ := hsame _ _ h
      exact ⟨hwrap, rfl⟩

/-! ### The list -/

/-- Stepping over held fragments leaves the list. -/
theorem nextGap_nodes (fragEnd : ℕ) (rest : List Frag3Frag) :
    ∀ (currEnd : ℕ) (before mid : List Frag3Frag),
      (nextGap fragEnd currEnd before mid rest).2.1.reverse ++
          (nextGap fragEnd currEnd before mid rest).2.2.1 ++
          (nextGap fragEnd currEnd before mid rest).2.2.2 =
        before.reverse ++ mid ++ rest := by
  induction rest with
  | nil => exact fun _ _ _ => rfl
  | cons right next ih =>
    intro currEnd before mid
    rw [nextGap]
    split_ifs
    · rw [ih]
      simp
    · rfl

theorem rejectTrim_nodes {right : Frag3Frag} {next : List Frag3Frag} (h : w.rest = right :: next) :
    (rejectTrim c right next w).nodes = w.nodes := by
  unfold rejectTrim
  split_ifs
  · simp [Walk.nodes, h]
  · rfl

theorem afterChunk_nodes (newfrag : Frag3Frag) (w : Walk) :
    (afterChunk c newfrag w).2.nodes = w.nodes := by
  have hnodes := nextGap_nodes c.fragEnd w.rest (u16 newfrag.stop) w.before w.mid
  unfold afterChunk
  dsimp only
  split_ifs <;> exact hnodes

end Snort.Frag3
