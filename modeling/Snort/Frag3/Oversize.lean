import Snort.Frag3.Frame
import Snort.Frag3.Invariants

/-!
# Fragments beyond the largest packet

`Frag3Insert` refuses a fragment and marks the tracker `FRAG_BAD` when the size of the datagram
exceeds `IP_MAXPACKET`.  The size is only ever set from 16 bit variables.

* `Run.size_le`: the size of a tracker fits 16 bits in every run;
* **`oversize_unmarked`**: no fragment that ends beyond `IP_MAXPACKET` is refused by that test,
  and one that opens a tracker is stored.
-/

namespace Snort.Frag3

open CInt

variable {env : Env} {ctx : Frag3Context} {p : Packet} {c : Cut}

/-! ### The size of the datagram -/

/-- A tracker as every run leaves it: the size has 16 bits. -/
def SizeFits (ft : FragTracker) : Prop := ft.calculatedSize ≤ ipMaxpacket

theorem u16_le_ipMaxpacket (x : ℤ) : u16 x ≤ ipMaxpacket := Nat.lt_succ_iff.1 (u16_lt x)

theorem frag3CheckFirstLast_size {ft : FragTracker} (h : SizeFits ft) (p : Packet) :
    SizeFits (frag3CheckFirstLast p ft).1 ∧ (frag3CheckFirstLast p ft).1.bad = ft.bad := by
  unfold frag3CheckFirstLast
  dsimp only
  by_cases hfirst : p.mf ∧ p.fragOffset = 0
  · rw [if_pos hfirst]
    exact ⟨h, rfl⟩
  rw [if_neg hfirst]
  by_cases hlast : (!p.mf) = true ∧ p.fragOffset > 0
  · rw [if_pos hlast]
    generalize (if ft.gotLast then
        if ft.calculatedSize > u16 (p.fragOffset * 8 + p.ipFragLen) then FirstLast.lastDuplicate
        else if ft.fragPolicy = .solaris then .lastOffsetAdjust else .firstlastOk
      else .firstlastOk) = ret
    split_ifs
    · refine ⟨?_, rfl⟩
      dsimp only [SizeFits]
      exact u16_le_ipMaxpacket _
    · exact ⟨h, rfl⟩
  · rw [if_neg hlast]
    exact ⟨h, rfl⟩

/-- The first part never finds the size beyond `IP_MAXPACKET`. -/
theorem cutFragment_size {ft : FragTracker} (h : SizeFits ft) (p : Packet) (flo : FirstLast) :
    SizeFits (cutTracker (cutFragment p flo ft)) ∧
      (cutTracker (cutFragment p flo ft)).bad = ft.bad := by
  have hrest : ∀ (c : Cut) (ft' : FragTracker), SizeFits ft' → ft'.bad = ft.bad →
      let r : Except (InsertRet × FragTracker) (Cut × FragTracker) :=
        if c.fragEnd = c.fragOffset then .error (.anomaly, ft')
        else if ft'.calculatedSize > ipMaxpacket then .error (.anomaly, { ft' with bad := true })
        else .ok (c, ft')
      SizeFits (cutTracker r) ∧ (cutTracker r).bad = ft.bad := by
    intro c ft' hs hb
    have hsmall : ¬ ft'.calculatedSize > ipMaxpacket := Nat.not_lt.2 hs
    dsimp only
    rw [if_neg hsmall]
    split_ifs <;> exact ⟨hs, hb⟩
  unfold cutFragment
  dsimp only
  generalize (if flo = .lastOffsetAdjust then u16 ft.calculatedSize else u16 (p.fragOffset * 8)) =
    fragOffset
  have hend : u16 (fragOffset + i16 p.ipFragLen) ≤ ipMaxpacket := u16_le_ipMaxpacket _
  generalize u16 (fragOffset + i16 p.ipFragLen) = fragEnd at hend
  generalize u16 (p.fragOffset * 8) = origOffset
  generalize i16 p.ipFragLen = fragLength
  cases p.mf with
  | false =>
    have hnot : (!false) = true := rfl
    rw [if_pos hnot]
    by_cases hgrow : fragEnd > ft.calculatedSize ∧ flo = .lastOffsetAdjust
    · rw [if_pos hgrow]
      exact hrest ⟨origOffset, fragOffset, fragEnd, fragLength, fragLength, true⟩
        { ft with calculatedSize := fragEnd } hend rfl
    · rw [if_neg hgrow]
      exact hrest _ ft h rfl
  | true =>
    have hnot : ¬ (!true) = true := Bool.false_ne_true
    have hcut : fragEnd / 8 * 8 ≤ ipMaxpacket := (Nat.div_mul_le_self _ _).trans hend
    rw [if_neg hnot]
    by_cases hgrow : fragEnd / 8 * 8 > ft.calculatedSize
    · rw [if_pos hgrow]
      by_cases hlast : ft.gotLast = true
      · rw [if_pos hlast]
        exact ⟨h, rfl⟩
      · rw [if_neg hlast]
        exact hrest _ { ft with calculatedSize := fragEnd / 8 * 8 } hcut rfl
    · rw [if_neg hgrow]
      exact hrest _ ft h rfl

theorem SizeFits.expire {ft : FragTracker} (h : SizeFits ft) (ctx : Frag3Context) (p : Packet) :
    SizeFits (frag3Expire ctx p ft) := by
  unfold frag3Expire
  split_ifs
  · exact Nat.zero_le _
  · exact h

/-- One call: the size still fits, and only an attack marks the tracker. -/
theorem SizeFits.insert {ft : FragTracker} (h : SizeFits ft) (env : Env) (ctx : Frag3Context)
    (p : Packet) :
    SizeFits (frag3Insert env ctx p ft).2 ∧
      ((frag3Insert env ctx p ft).2.bad = (frag3Expire ctx p ft).bad ∨
        (frag3Insert env ctx p ft).1 = .attack) := by
  obtain ⟨hfirst, hbad⟩ := frag3CheckFirstLast_size (h.expire ctx p) p
  obtain ⟨hcut, hbad'⟩ := cutFragment_size hfirst p (frag3CheckFirstLast p (frag3Expire ctx p ft)).2
  unfold frag3Insert
  dsimp only
  cases hr : cutFragment p (frag3CheckFirstLast p (frag3Expire ctx p ft)).2
      (frag3CheckFirstLast p (frag3Expire ctx p ft)).1 with
  | error e =>
    rw [hr] at hcut hbad'
    exact ⟨hcut, Or.inl (hbad'.trans hbad)⟩
  | ok r =>
    obtain ⟨c, ft'⟩ := r
    rw [hr] at hcut hbad'
    have hmarks := insertCut_marks env ctx (p := p) (c := c) ft'
    dsimp only
    generalize insertCut env ctx p c ft' = result at hmarks
    obtain ⟨ret, w⟩ := result
    rcases hmarks with ⟨_, _, _, heq⟩ | ⟨hret, _, _, _, heq⟩
    · have hsame : w.relink.calculatedSize = ft'.calculatedSize ∧ w.relink.bad = ft'.bad := by
        simp only [Walk.relink]
        simp only at heq
        rw [heq]
        exact ⟨rfl, rfl⟩
      refine ⟨?_, Or.inl (hsame.2.trans (hbad'.trans hbad))⟩
      unfold SizeFits
      rw [hsame.1]
      exact hcut
    · have hsame : w.relink.calculatedSize = ft'.calculatedSize := by
        simp only [Walk.relink]
        simp only at heq
        rw [heq]
      refine ⟨?_, Or.inr hret⟩
      unfold SizeFits
      rw [hsame]
      exact hcut

theorem frag3NewTracker_size {env : Env} {policy : FragPolicy} {b : Bool} {ft : FragTracker}
    (h : frag3NewTracker env policy p = some (b, ft)) : SizeFits ft ∧ ft.bad = false := by
  have hfirst : ∀ l n, SizeFits (frag3CheckFirstLast p
        { fragTime := p.ts, fragPolicy := policy, fraglist := l, ordinal := n }).1 ∧
      (frag3CheckFirstLast p
        { fragTime := p.ts, fragPolicy := policy, fraglist := l, ordinal := n }).1.bad = false :=
    fun _ _ => frag3CheckFirstLast_size (Nat.zero_le _) p
  unfold SizeFits at hfirst ⊢
  unfold frag3NewTracker at h
  dsimp only at h
  split_ifs at h
  all_goals obtain ⟨-, rfl⟩ := Prod.mk.inj (Option.some.inj h)
  · exact hfirst _ _
  · exact hfirst _ _
  · exact ⟨Nat.zero_le _, rfl⟩

/-- In every run the size of the datagram has 16 bits. -/
theorem Run.size_le {policy : FragPolicy} {new : Packet → Bool → Prop}
    {step : Env → Frag3Context → FragTracker → Packet → Prop} {ps : List Packet} {ft : FragTracker}
    (h : Run policy new step ps ft) : SizeFits ft := by
  induction h with
  | new env h _ => exact (frag3NewTracker_size h).1
  | insert env ctx _ _ ih => exact (ih.insert env ctx _).1

/-! ### The test never fires -/

/-- The node that `Frag3NewTracker` makes of a fragment beyond the largest packet reaches beyond
it as well. -/
theorem frag3NewTracker_oversize {env : Env} {policy : FragPolicy} {ft : FragTracker}
    (hoffset : p.fragOffset < 8192) (hlen : p.ipFragLen < 65536)
    (hp : ipMaxpacket < p.fragOffset * 8 + p.ipFragLen)
    (h : frag3NewTracker env policy p = some (true, ft)) :
    ∃ n, ft.fraglist = [n] ∧ n.fptr = p.ipFragStart ∧ ipMaxpacket < n.stop := by
  have hlist : ∀ ft : FragTracker, (frag3CheckFirstLast p ft).1.fraglist = ft.fraglist := by
    intro ft
    obtain ⟨_, _, _, heq⟩ := frag3CheckFirstLast_frame p ft
    rw [heq]
  have ho : u16 ((p.fragOffset : ℤ) * 8) = p.fragOffset * 8 := u16_of_eq (by simp) (by omega)
  unfold ipMaxpacket at hp
  unfold frag3NewTracker at h
  dsimp only at h
  rw [ho] at h
  split_ifs at h with hsnap hmem hmf
  · obtain ⟨-, rfl⟩ := Prod.mk.inj (Option.some.inj h)
    refine ⟨_, hlist _, rfl, ?_⟩
    -- the end wraps around, and the size with it
    simp only [Frag3Frag.stop, ipMaxpacket, u16]
    omega
  · obtain ⟨-, rfl⟩ := Prod.mk.inj (Option.some.inj h)
    exact ⟨_, hlist _, rfl, hp⟩
  · cases h

/-- **The test for an oversize datagram never fires**: whatever a tracker has received, a fragment
that ends beyond `IP_MAXPACKET` leaves the size within it, and the call marks the tracker
`FRAG_BAD` only as an attack; a tracker that it opens holds it, beyond `IP_MAXPACKET`, and is not
marked. -/
theorem oversize_unmarked (policy : FragPolicy) {p : Packet} (hoffset : p.fragOffset < 8192)
    (hlen : p.ipFragLen < 65536) (hp : ipMaxpacket < p.fragOffset * 8 + p.ipFragLen) :
    (∀ env ft, frag3NewTracker env policy p = some (true, ft) → ft.bad = false ∧
      ∃ n, ft.fraglist = [n] ∧ n.fptr = p.ipFragStart ∧ ipMaxpacket < n.stop) ∧
    ∀ ps ft, Run policy (fun _ _ => True) (fun _ _ _ _ => True) ps ft → ∀ env ctx,
      ¬ ipMaxpacket < (frag3Insert env ctx p ft).2.calculatedSize ∧
      ((frag3Insert env ctx p ft).2.bad = (frag3Expire ctx p ft).bad ∨
        (frag3Insert env ctx p ft).1 = .attack) := by
  refine ⟨fun env ft h => ⟨(frag3NewTracker_size h).2, ?_⟩, fun ps ft h env ctx => ?_⟩
  · exact frag3NewTracker_oversize hoffset hlen hp h
  · obtain ⟨hsize, hbad⟩ := h.size_le.insert env ctx p
    exact ⟨Nat.not_lt.2 hsize, hbad⟩

theorem oversize_unmarked_last : ∃ ft,
    Run .linux (fun _ _ => True) (fun _ _ _ _ => True) [zeros 0 16 true] ft ∧
    ¬ ipMaxpacket < (frag3Insert {} {} (zeros 8191 16 false) ft).2.calculatedSize :=
  ⟨_, .new {} rfl trivial, ((oversize_unmarked .linux (by decide) (by decide) (by decide)).2
    [zeros 0 16 true] _ (.new {} rfl trivial) {} {}).1⟩

/-- A fragment of 16 bytes at the last offset is stored, and the tracker is not marked. -/
theorem oversize_stored : ∃ ft,
    frag3NewTracker {} .linux (zeros 8191 16 false) = some (true, ft) ∧ ft.bad = false ∧
      ft.fraglist.map (fun n => n.offset + n.size) = [65544] :=
  ⟨_, rfl, rfl, by decide⟩

end Snort.Frag3
