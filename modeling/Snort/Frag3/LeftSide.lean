import Snort.Frag3.RightSide

/-!
# The left-side overlap step of `Frag3Insert`

The list is cut where the new fragment goes (`Placed`).  The step makes the walk `Open`: the new
fragment is moved behind the held one, or the held one is cut back.
-/

namespace Snort.Frag3

open CInt Tiling

/-- The walk that `insertCut` starts from. -/
structure Placed (c : Cut) (w : Walk) : Prop where
  mid : w.mid = []
  laid : Laid w.nodes
  bounded : Bounded w.nodes
  left : ∀ n ∈ w.before, n.offset < c.fragOffset
  right : ∀ n ∈ w.rest, c.fragOffset ≤ n.offset
  offset : w.fragOffset = c.fragOffset
  slide : w.slide = 0
  trunc : w.trunc = 0

/-- Where the new fragment goes on when it gives way to `left`. -/
def Walk.moved (w : Walk) : ℕ :=
  match w.before with
  | [] => w.fragOffset
  | left :: _ => max w.fragOffset left.stop

/-- What the left-side step has done, by its result. -/
def LeftPost (p : Packet) (c : Cut) (w : Walk) : Except (InsertRet × Walk) Walk → Prop
  | .error (ret, w') => ret ≠ .ok ∧ (w.ft.fragPolicy = .last → ret ≠ .anomaly) ∧
      Safe (whole p c) w w'
  | .ok w' => Goes p c w w' ∧ Open c w' ∧ w'.trunc = 0 ∧ w'.fragOffset ≤ c.fragEnd ∧
      (w.ft.fragPolicy.rejects →
        w'.rest = w.rest ∧ w'.fragOffset = w.moved ∧ w'.fragOffset < c.fragEnd)

section LeftSide

variable {env : Env} {p : Packet} {c : Cut} {w : Walk} {left : Frag3Frag} {bs : List Frag3Frag}

theorem Placed.open_self (h : Placed c w) (hle : ∀ n ∈ w.before, n.stop ≤ w.fragOffset) :
    Open c w where
  mid := h.mid
  laid := h.laid
  bounded := h.bounded
  left := hle
  right := by rw [h.offset]; exact h.right
  slide := by rw [h.slide, h.offset, sub_self]
  base := h.offset.ge

theorem Placed.countOverlap (h : Placed c w) : Placed c w.countOverlap :=
  ⟨h.mid, h.laid, h.bounded, h.left, h.right, h.offset, h.slide, h.trunc⟩

/-- The nodes before `left` end before it starts. -/
theorem Placed.before_le (h : Placed c w) (hb : w.before = left :: bs) :
    ∀ n ∈ bs, n.stop ≤ left.offset := by
  have hn : w.nodes = bs.reverse ++ left :: w.rest := by
    rw [Walk.nodes_eq h.mid, hb]; simp
  intro n hmem
  exact (tiled_append.1 (hn ▸ h.laid : Laid _)).2.2 n (List.mem_reverse.2 hmem) left
    List.mem_cons_self

/-- The new fragment moves behind `left`, which stays. -/
theorem Placed.slideBy (h : Placed c w) (hb : w.before = left :: bs)
    (hov : w.fragOffset < left.stop) (hp : w.ft.fragPolicy ≠ .last) :
    (w.slideBy (left.stop - w.fragOffset)).fragOffset = left.stop ∧
      Open c (w.slideBy (left.stop - w.fragOffset)) ∧
      Safe (whole p c) w (w.slideBy (left.stop - w.fragOffset)) ∧
      (left.stop ≤ c.fragEnd → Goes p c w (w.slideBy (left.stop - w.fragOffset))) := by
  have hn : w.nodes = bs.reverse ++ left :: w.rest := by
    rw [Walk.nodes_eq h.mid, hb]; simp
  have hlt := h.left left (by rw [hb]; exact List.mem_cons_self)
  have hbd := h.bounded left (by rw [hn]; simp)
  have h1 := h.offset
  simp only [Frag3Frag.stop] at hov hbd
  have hi : i16 ((left.stop : ℤ) - w.fragOffset) = left.stop - w.fragOffset :=
    i16_of_range (by simp only [Frag3Frag.stop]; omega) (by simp only [Frag3Frag.stop]; omega)
  have ho : (w.slideBy (left.stop - w.fragOffset)).fragOffset = left.stop := by
    simp only [Walk.slideBy, hi]
    exact u16_of_eq (by omega) (by simp only [Frag3Frag.stop]; omega)
  have hsafe : Safe (whole p c) w (w.slideBy (left.stop - w.fragOffset)) :=
    Safe.same h.laid rfl ⟨_, _, rfl⟩
  refine ⟨ho, ⟨h.mid, h.laid, h.bounded, ?_, ?_, ?_, ?_⟩, hsafe, fun hend => ⟨hsafe, ?_, ?_⟩⟩
  · rw [ho]
    intro n hmem
    have hmem : n ∈ left :: bs := hb ▸ hmem
    rcases List.mem_cons.1 hmem with rfl | hmem
    · exact le_rfl
    · have := h.before_le hb n hmem
      simp only [Frag3Frag.stop] at *
      omega
  · rw [ho]
    intro n hmem
    exact (tiled_cons.1 (tiled_append.1 (hn ▸ h.laid : Laid _)).2.1).1 n hmem
  · rw [ho, ← h1]
    exact hi
  · rw [ho]
    simp only [Frag3Frag.stop]
    omega
  · intro x
    rw [ho]
    show (Held w.nodes x ∨ _) ↔ (Held w.nodes x ∨ _)
    have hleft : left.offset ≤ x → x < left.stop → Held w.nodes x := fun hx hx' =>
      ⟨left, by rw [hn]; simp, hx, hx'⟩
    constructor
    · rintro (hx | hx)
      · exact Or.inl hx
      · exact Or.inr ⟨by simp only [Frag3Frag.stop] at hx; omega, hx.2⟩
    · rintro (hx | hx)
      · exact Or.inl hx
      · by_cases hxl : x < left.stop
        · exact Or.inl (hleft (by omega) hxl)
        · exact Or.inr (by omega)
  · exact fun hl => absurd hl hp

theorem leftOverlapLast_self (hb : w.before = left :: bs) (hpos : left.size ≠ 0) :
    leftOverlapLast left bs w = w := by
  rw [leftOverlapLast, if_neg hpos, ← hb]

/-- `left` has become `m`, which ends where the new fragment starts; what else is left of it is
at the head of `rest'`. -/
theorem Placed.recut (h : Placed c w) (hc : CutOk p c) (hb : w.before = left :: bs)
    (hp : ¬ w.ft.fragPolicy.rejects) {m : Frag3Frag} {rest' : List Frag3Frag} {b' : ℕ}
    (hrefit : Refit (whole p c) w.ft.fragBytes (bs.reverse ++ left :: w.rest) b'
      (bs.reverse ++ m :: rest'))
    (hlaid : Laid (bs.reverse ++ m :: rest')) (hm : m.stop = w.fragOffset)
    (hrest : ∀ n ∈ rest', c.fragOffset ≤ n.offset)
    (hcov : ∀ x, (Held (m :: rest') x ∨ (w.fragOffset ≤ x ∧ x < c.fragEnd)) ↔
      (Held (left :: w.rest) x ∨ (w.fragOffset ≤ x ∧ x < c.fragEnd)))
    (hsmall : b' < 4294967296) {w' : Walk} (hb' : w'.before = m :: bs) (hm' : w'.mid = [])
    (hr' : w'.rest = rest')
    (hf : ∃ k, w'.ft = { w.ft with ordinal := k, fragBytes := b' })
    (ho : w'.fragOffset = w.fragOffset) (hs : w'.slide = w.slide) (ht : w'.trunc = 0) :
    LeftPost p c w (.ok w') := by
  have hn : w.nodes = bs.reverse ++ left :: w.rest := by
    rw [Walk.nodes_eq h.mid, hb]; simp
  have hn' : w'.nodes = bs.reverse ++ m :: rest' := by
    rw [Walk.nodes_eq hm', hb', hr']; simp
  have hfirst : w.ft.fragPolicy ≠ .first := by intro hf; rw [hf] at hp; exact hp trivial
  have h1 := h.offset
  have h2 := hc.lt
  obtain ⟨k, hf⟩ := hf
  have hsafe : Safe (whole p c) w w' := by
    refine Safe.of_nodes (hn ▸ hrefit) hlaid (fun hf => absurd hf hfirst) hn' ?_ ?_ ?_ ?_ ?_ ?_
      hsmall
    all_goals rw [hf]
  refine ⟨⟨hsafe, fun x => ?_, fun _ => ⟨ho, hs⟩⟩, ⟨hm', hsafe.laid,
    hsafe.refit.bounded h.bounded hc.whole_bounded, ?_, ?_, ?_, ?_⟩, ht, ?_,
    fun hr => absurd hr hp⟩
  · have hx := hcov x
    simp only [hn', hn, ho, covers_append, or_assoc, hx]
  · intro n hmem
    rw [hb'] at hmem
    rw [ho]
    rcases List.mem_cons.1 hmem with rfl | hmem
    · exact hm.le
    · have := h.before_le hb n hmem
      have := (tiled_append.1 (hn ▸ h.laid : Laid _)).2.2 n (List.mem_reverse.2 hmem) left
        List.mem_cons_self
      have := h.left left (by rw [hb]; exact List.mem_cons_self)
      omega
  · rw [hr', ho, h1]; exact hrest
  · rw [hs, ho, h.slide, h1, sub_self]
  · rw [ho, h1]
  · rw [ho, h1]; exact h2.le

/-- `left` is cut back before the new fragment, or split around it. -/
theorem truncLeft_post (env : Env) (h : Placed c w) (hc : CutOk p c) (hb : w.before = left :: bs)
    (hov : w.fragOffset < left.stop) (hp : ¬ w.ft.fragPolicy.rejects) :
    LeftPost p c w (truncLeft env c (left.stop - w.fragOffset) left bs w) := by
  have hn : w.nodes = bs.reverse ++ left :: w.rest := by
    rw [Walk.nodes_eq h.mid, hb]; simp
  have hlt := h.left left (by rw [hb]; exact List.mem_cons_self)
  have hbd := h.bounded left (by rw [hn]; simp)
  have h1 := h.offset
  have h2 := hc.len
  have h3 := hc.lt
  have h4 := hc.bound
  simp only [Frag3Frag.stop] at hov hbd
  have hi : i16 ((left.stop : ℤ) - w.fragOffset) = left.stop - w.fragOffset :=
    i16_of_range (by simp only [Frag3Frag.stop]; omega) (by simp only [Frag3Frag.stop]; omega)
  have hls : left.stop = left.offset + left.size := rfl
  have hlaid : Laid (bs.reverse ++ left :: w.rest) := hn ▸ h.laid
  have hnext := (tiled_cons.1 (tiled_append.1 hlaid).2.1).1
  let m : Frag3Frag := { left with size := w.fragOffset - left.offset }
  have hm : u16 (left.size - ((left.stop : ℤ) - w.fragOffset)) = m.size :=
    u16_of_eq (by simp only [m, Frag3Frag.stop]; omega) (by simp only [m]; omega)
  have hmpos : 0 < m.size := by simp only [m]; omega
  have hmstop : m.stop = w.fragOffset := by simp only [m, Frag3Frag.stop]; omega
  have hmp : PieceOf m left := ⟨rfl, rfl, le_rfl, by omega, by simp only [m]; omega⟩
  have hmsize : (m.size : ℤ) = left.size - (left.stop - w.fragOffset) := by
    simp only [m, Frag3Frag.stop]; omega
  have hlaidm : Laid (bs.reverse ++ m :: w.rest) := hlaid.shrink hmp.start hmp.stop
  rw [truncLeft]
  split_ifs with hsplit
  · -- `left` reaches beyond the new fragment
    have hov' : (c.fragEnd : ℤ) < left.stop := by omega
    have hend : (w.fragOffset : ℤ) + c.len = c.fragEnd := by omega
    let m' : Frag3Frag := { left with ord := w.ft.ordinal, offset := c.fragEnd,
                                      size := left.stop - c.fragEnd,
                                      data := left.data + (c.fragEnd - left.offset) }
    have hms : u16 (left.size - ((c.fragEnd : ℤ) - left.offset)) = m'.size :=
      u16_of_eq (by simp only [m', Frag3Frag.stop] at *; omega)
        (by simp only [m', Frag3Frag.stop]; omega)
    have hmd : ((left.data : ℤ) + ((c.fragEnd : ℤ) - left.offset)).toNat = m'.data := by
      simp only [m']; omega
    have hmo : u16 (c.fragEnd : ℤ) = c.fragEnd := u16_of_eq rfl (by omega)
    have hmpos' : 0 < m'.size := by simp only [m']; omega
    have hmstop' : m'.stop = left.stop := by simp only [m', Frag3Frag.stop] at *; omega
    have hmp' : PieceOf m' left := ⟨rfl, rfl, by simp only [m']; omega, hmstop'.le, rfl⟩
    have hmsize' : (m'.size : ℤ) = left.size - ((c.fragEnd : ℤ) - left.offset) := by
      simp only [m', Frag3Frag.stop] at *; omega
    have hlaid' : Laid ((bs.reverse ++ [m]) ++ m' :: w.rest) := by
      refine (List.append_cons _ _ _ ▸ hlaidm : Laid ((bs.reverse ++ [m]) ++ w.rest)).insert ?_ ?_
      · intro a ha
        rcases List.mem_append.1 ha with ha | ha
        · have := h.before_le hb a (List.mem_reverse.1 ha)
          exact this.trans hmp'.start
        · rw [List.mem_singleton.1 ha, hmstop]
          simp only [m']; omega
      · exact fun b hb => hmstop'.trans_le (hnext b hb)
    rw [dupFragNode]
    split_ifs with hmem
    · simp only [hi, hm]
      rw [leftOverlapLast, if_neg hmpos.ne']
      simp only [Walk.subBytes, hend, hms, hmd, hmo]
      refine h.recut hc hb hp (m := m)
        (Refit.split hmp hmp' hmpos hmpos' hmsize hmsize') (by simpa using hlaid') hmstop ?_ ?_
        (u32_lt _) rfl h.mid rfl ⟨_, rfl⟩ rfl rfl h.trunc
      · intro n hmem
        rcases List.mem_cons.1 hmem with rfl | hmem
        · exact h3.le
        · exact h.right n hmem
      · intro x
        simp only [covers_cons, hmstop, hmstop']
        constructor
        · rintro ((hx | hx | hx) | hx)
          · exact Or.inl (Or.inl ⟨hx.1, by omega⟩)
          · exact Or.inl (Or.inl ⟨hmp'.start.trans hx.1, hx.2⟩)
          · exact Or.inl (Or.inr hx)
          · exact Or.inr hx
        · rintro ((hx | hx) | hx)
          · by_cases hxf : x < w.fragOffset
            · exact Or.inl (Or.inl ⟨hx.1, hxf⟩)
            · by_cases hxe : x < c.fragEnd
              · exact Or.inr (by omega)
              · exact Or.inl (Or.inr (Or.inl ⟨by simp only [m']; omega, hx.2⟩))
          · exact Or.inl (Or.inr (Or.inr hx))
          · exact Or.inr hx
    · exact ⟨by simp, by simp, Safe.same h.laid rfl ⟨_, _, rfl⟩⟩
  · have hstop : left.stop ≤ c.fragEnd := by omega
    simp only [hi, hm]
    rw [leftOverlapLast, if_neg hmpos.ne']
    refine h.recut hc hb hp (m := m) (Refit.cut hmp hmpos hmsize) hlaidm hmstop
      h.right ?_ (u32_lt _) rfl h.mid rfl ⟨_, rfl⟩ rfl rfl h.trunc
    intro x
    simp only [covers_cons, hmstop]
    constructor
    · rintro ((hx | hx) | hx)
      · exact Or.inl (Or.inl ⟨hx.1, by omega⟩)
      · exact Or.inl (Or.inr hx)
      · exact Or.inr hx
    · rintro ((hx | hx) | hx)
      · by_cases hxf : x < w.fragOffset
        · exact Or.inl (Or.inl ⟨hx.1, hxf⟩)
        · exact Or.inr (by omega)
      · exact Or.inl (Or.inr hx)
      · exact Or.inr hx

/-- The overlap counter plays no part. -/
theorem LeftPost.of_countOverlap {r : Except (InsertRet × Walk) Walk} (hl : Laid w.nodes)
    (h : LeftPost p c w.countOverlap r) : LeftPost p c w r := by
  have hs : Safe (whole p c) w w.countOverlap := Safe.same hl rfl ⟨_, _, rfl⟩
  match r, h with
  | .error (ret, w'), ⟨hne, hna, h⟩ => exact ⟨hne, hna, hs.trans h⟩
  | .ok w', ⟨hgo, h⟩ =>
    exact ⟨Goes.trans ⟨hs, fun _ => Iff.rfl, fun _ => ⟨rfl, rfl⟩⟩ hgo, h⟩

/-- The held fragment stays: the new one is moved, and dropped when nothing is left of it. -/
theorem Placed.slideBy_post (h : Placed c w) (hb : w.before = left :: bs)
    (hov : w.fragOffset < left.stop) (hp : w.ft.fragPolicy ≠ .last) {w' : Walk}
    (hw' : w' = w.slideBy (left.stop - w.fragOffset))
    (hlt : w.ft.fragPolicy.rejects → w'.fragOffset < c.fragEnd) :
    LeftPost p c w (if c.fragEnd < w'.fragOffset then .error (.anomaly, w') else .ok w') := by
  obtain ⟨ho, hopen, hsafe, hgo⟩ := h.slideBy (p := p) hb hov hp
  rw [← hw'] at ho hopen hsafe hgo
  split_ifs with hend
  · exact ⟨by simp, fun hl => absurd hl hp, hsafe⟩
  · refine ⟨hgo (by omega), hopen, ?_, by omega, fun hr => ⟨?_, ?_, hlt hr⟩⟩
    · rw [hw']; exact h.trunc
    · rw [hw']; rfl
    · simp only [Walk.moved, hb, ho]
      omega

theorem leftSwitch_post (h : Placed c w) (hc : CutOk p c) (hb : w.before = left :: bs)
    (hov : w.fragOffset < left.stop) :
    LeftPost p c w
      (match leftSwitch env c (left.stop - w.fragOffset) left bs w with
      | .error e => .error e
      | .ok w => if c.fragEnd < w.fragOffset then .error (.anomaly, w) else .ok w) := by
  have hlt := hc.lt
  have hle := h.left left (by rw [hb]; exact List.mem_cons_self)
  have h1 := h.offset
  have hpos : left.size ≠ 0 := by simp only [Frag3Frag.stop] at hov; omega
  have htrunc : ¬ w.ft.fragPolicy.rejects → LeftPost p c w
      (match truncLeft env c (left.stop - w.fragOffset) left bs w with
      | .error e => .error e
      | .ok w => if c.fragEnd < w.fragOffset then .error (.anomaly, w) else .ok w) := by
    intro hp
    have hpost := truncLeft_post env h hc hb hov hp
    match truncLeft env c (left.stop - w.fragOffset) left bs w, hpost with
    | .error e, hpost => exact hpost
    | .ok w', hpost =>
      simp only
      rw [if_neg (by have := hpost.2.2.2.1; omega)]
      exact hpost
  have hslide : w.ft.fragPolicy ≠ .last → LeftPost p c w
      (match (if c.fragEnd ≤ (w.slideBy (left.stop - w.fragOffset)).fragOffset then
          .error (.anomaly, w.slideBy (left.stop - w.fragOffset))
        else .ok (w.slideBy (left.stop - w.fragOffset)) : Except (InsertRet × Walk) Walk) with
      | .error e => .error e
      | .ok w => if c.fragEnd < w.fragOffset then .error (.anomaly, w) else .ok w) := by
    intro hp
    by_cases hend : c.fragEnd ≤ (w.slideBy (left.stop - w.fragOffset)).fragOffset
    · rw [if_pos hend]
      exact ⟨by simp, fun hl => absurd hl hp, (h.slideBy hb hov hp).2.2.1⟩
    · rw [if_neg hend]
      exact h.slideBy_post hb hov hp rfl fun _ => by omega
  cases hpol : w.ft.fragPolicy with
  | last =>
    simp only [leftSwitch, hpol]
    exact htrunc (by rw [hpol]; exact id)
  | bsdRight =>
    simp only [leftSwitch, hpol]
    split_ifs with hstop
    · refine h.slideBy_post hb hov (by simp [hpol]) ?_ fun hr => ?_
      · exact leftOverlapLast_self hb hpos
      · rw [hpol] at hr; exact hr.elim
    · exact htrunc (by rw [hpol]; exact id)
  | first | linux | bsd | windows | solaris =>
    simp only [leftSwitch, hpol]
    exact hslide (by simp [hpol])

/-- **The left-side overlap step is sound**, under every policy. -/
theorem leftOverlap_post (env : Env) (h : Placed c w) (hc : CutOk p c) :
    LeftPost p c w (leftOverlap env p c w) := by
  have h1 := h.offset
  have hlt := hc.lt
  rw [leftOverlap]
  have hself : (∀ n ∈ w.before, n.stop ≤ w.fragOffset) → w.fragOffset = w.moved →
      LeftPost p c w (.ok w) := fun hle hmoved =>
    ⟨⟨Safe.same h.laid rfl ⟨_, _, rfl⟩, fun _ => Iff.rfl, fun _ => ⟨rfl, rfl⟩⟩, h.open_self hle,
      h.trunc, by omega, fun _ => ⟨rfl, hmoved, by omega⟩⟩
  cases hb : w.before with
  | nil => exact hself (by simp [hb]) (by simp [Walk.moved, hb])
  | cons left bs =>
    have hmoved : w.moved = max w.fragOffset left.stop := by simp [Walk.moved, hb]
    have hleft := h.left left (by rw [hb]; exact List.mem_cons_self)
    simp only
    split_ifs with hov htear
    · exact ⟨by simp, by simp, Safe.same h.laid rfl ⟨_, _, rfl⟩⟩
    · exact LeftPost.of_countOverlap h.laid
        (leftSwitch_post h.countOverlap hc hb (by simp only [Walk.countOverlap]; omega))
    · refine hself ?_ (by omega)
      rw [hb]
      intro n hmem
      rcases List.mem_cons.1 hmem with rfl | hmem
      · omega
      · have := h.before_le hb n hmem
        simp only [Frag3Frag.stop] at *
        omega

end LeftSide

end Snort.Frag3
