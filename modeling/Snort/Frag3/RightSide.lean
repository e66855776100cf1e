import Snort.Frag3.Layout

/-!
# The right-side loop of `Frag3Insert`

The loop is entered with the new fragment behind `left` and before `right` (`Open`).  Under
`ChunkSafe` it never links a chunk whose `slide` or `trunc` disagrees with its place, and it
leaves a list that is laid out without overlap; `rightLoop_post` says what it has done.
-/

namespace Snort.Frag3

open CInt Tiling

/-- The state of the walk at the head of the right-side loop. -/
structure Open (c : Cut) (w : Walk) : Prop where
  mid : w.mid = []
  laid : Laid w.nodes
  bounded : Bounded w.nodes
  left : ∀ n ∈ w.before, n.stop ≤ w.fragOffset
  right : ∀ n ∈ w.rest, w.fragOffset ≤ n.offset
  slide : w.slide = w.fragOffset - c.fragOffset
  base : c.fragOffset ≤ w.fragOffset

/-- The walk `w'` was reached from `w` by sound steps. -/
structure Safe (new : Frag3Frag) (w w' : Walk) : Prop where
  refit : Refit new w.ft.fragBytes w.nodes w'.ft.fragBytes w'.nodes
  laid : Laid w'.nodes
  size : w'.ft.calculatedSize = w.ft.calculatedSize
  gotFirst : w'.ft.gotFirst = w.ft.gotFirst
  gotLast : w'.ft.gotLast = w.ft.gotLast
  policy : w'.ft.fragPolicy = w.ft.fragPolicy
  time : w'.ft.fragTime = w.ft.fragTime
  small : w.ft.fragBytes < 4294967296 → w'.ft.fragBytes < 4294967296
  keep : w.ft.fragPolicy = .first → ∀ n ∈ w.nodes, n ∈ w'.nodes

/-- `Safe` for a walk whose list is known. -/
theorem Safe.of_nodes {new : Frag3Frag} {w w' : Walk} {b : ℕ} {l : List Frag3Frag}
    (hr : Refit new w.ft.fragBytes w.nodes b l) (hl : Laid l)
    (hk : w.ft.fragPolicy = .first → ∀ n ∈ w.nodes, n ∈ l) (hn : w'.nodes = l)
    (hb : w'.ft.fragBytes = b) (h1 : w'.ft.calculatedSize = w.ft.calculatedSize)
    (h2 : w'.ft.gotFirst = w.ft.gotFirst) (h3 : w'.ft.gotLast = w.ft.gotLast)
    (h4 : w'.ft.fragPolicy = w.ft.fragPolicy) (h5 : w'.ft.fragTime = w.ft.fragTime)
    (h6 : b < 4294967296) : Safe new w w' where
  refit := by rw [hn, hb]; exact hr
  laid := by rw [hn]; exact hl
  size := h1
  gotFirst := h2
  gotLast := h3
  policy := h4
  time := h5
  small _ := by rw [hb]; exact h6
  keep hp := by rw [hn]; exact hk hp

/-- A step that changes no node and only counters and the mark `FRAG_BAD`. -/
theorem Safe.same {new : Frag3Frag} {w w' : Walk} (hl : Laid w.nodes) (hn : w'.nodes = w.nodes)
    (hf : ∃ k b, w'.ft = { w.ft with overlapCount := k, bad := b }) : Safe new w w' := by
  obtain ⟨k, b, hf⟩ := hf
  refine ⟨?_, hn ▸ hl, ?_, ?_, ?_, ?_, ?_, ?_, fun _ n hmem => hn ▸ hmem⟩
  · rw [hn, hf]; exact Refit.refl _ _ _
  all_goals rw [hf]
  exact id

theorem Safe.trans {new : Frag3Frag} {w w' w'' : Walk} (h : Safe new w w')
    (h' : Safe new w' w'') : Safe new w w'' where
  refit := h.refit.trans h'.refit
  laid := h'.laid
  size := h'.size.trans h.size
  gotFirst := h'.gotFirst.trans h.gotFirst
  gotLast := h'.gotLast.trans h.gotLast
  policy := h'.policy.trans h.policy
  time := h'.time.trans h.time
  small hs := h'.small (h.small hs)
  keep hp n hn := h'.keep (h.policy.trans hp) n (h.keep hp n hn)

/-- Sound steps that also keep track of what the list and the rest of the new fragment cover
together. -/
structure Goes (p : Packet) (c : Cut) (w w' : Walk) : Prop extends Safe (whole p c) w w' where
  cover : ∀ x, (Held w'.nodes x ∨ (w'.fragOffset ≤ x ∧ x < c.fragEnd)) ↔
    (Held w.nodes x ∨ (w.fragOffset ≤ x ∧ x < c.fragEnd))
  still : w.ft.fragPolicy = .last → w'.fragOffset = w.fragOffset ∧ w'.slide = w.slide

theorem Goes.trans {p : Packet} {c : Cut} {w w' w'' : Walk} (h : Goes p c w w')
    (h' : Goes p c w' w'') : Goes p c w w'' where
  toSafe := h.toSafe.trans h'.toSafe
  cover x := (h'.cover x).trans (h.cover x)
  still hp := by
    obtain ⟨h1, h2⟩ := h.still hp
    obtain ⟨h3, h4⟩ := h'.still (h.policy.trans hp)
    exact ⟨h3.trans h1, h4.trans h2⟩

/-- The walk from which the last chunk is linked: nothing of the fragment is left, or what is
left fits between `left` and `right`. -/
structure Ready (p : Packet) (c : Cut) (w w' : Walk) : Prop extends
    Safe (whole p c) w w' where
  mid : w'.mid = []
  slide_nonneg : 0 ≤ w'.slide
  trunc_nonneg : 0 ≤ w'.trunc
  range : w'.slide + w'.trunc < 32768
  last : w.ft.fragPolicy = .last →
    w'.fragOffset = w.fragOffset ∧ w'.slide = w.slide ∧ w'.trunc = 0
  fits : c.len ≤ w'.slide + w'.trunc ∨
    (w'.slide = w'.fragOffset - c.fragOffset ∧ c.fragOffset ≤ w'.fragOffset ∧
      w'.fragOffset + w'.trunc < c.fragEnd ∧
      (∀ n ∈ w'.before, n.stop ≤ w'.fragOffset) ∧
      (∀ n ∈ w'.rest, (c.fragEnd : ℤ) - w'.trunc ≤ n.offset) ∧
      (∀ x : ℕ, (Held w'.nodes x ∨ (w'.fragOffset ≤ x ∧ (x : ℤ) < c.fragEnd - w'.trunc)) ↔
        (Held w.nodes x ∨ (w.fragOffset ≤ x ∧ x < c.fragEnd))))

/-- What the loop has done, by its result. -/
def LoopPost (p : Packet) (c : Cut) (w : Walk) :
    Except (InsertRet × Walk) (Bool × Walk) → Prop
  | .error (ret, w') => ret ≠ .ok ∧ (w.ft.fragPolicy = .last → ret ≠ .anomaly) ∧
      Safe (whole p c) w w'
  | .ok (true, w') => Ready p c w w'
  | .ok (false, w') => Safe (whole p c) w w' ∧ w.ft.fragPolicy ≠ .last ∧
      ∀ x, Held w'.nodes x ↔ Held w.nodes x ∨ (w.fragOffset ≤ x ∧ x < c.fragEnd)

theorem LoopPost.of_goes {p : Packet} {c : Cut} {w w' : Walk} (h : Goes p c w w')
    {r : Except (InsertRet × Walk) (Bool × Walk)} (hr : LoopPost p c w' r) :
    LoopPost p c w r := by
  match r, hr with
  | .error (ret, w''), ⟨hne, hna, hs⟩ =>
    exact ⟨hne, fun hp => hna (h.policy.trans hp), h.toSafe.trans hs⟩
  | .ok (true, w''), hr =>
    refine { hr with toSafe := h.toSafe.trans hr.toSafe, last := fun hp => ?_, fits := ?_ }
    · obtain ⟨h1, h2⟩ := h.still hp
      obtain ⟨h3, h4, h5⟩ := hr.last (h.policy.trans hp)
      exact ⟨h3.trans h1, h4.trans h2, h5⟩
    · rcases hr.fits with hz | ⟨h1, h2, h3, h4, h5, h6⟩
      · exact Or.inl hz
      · exact Or.inr ⟨h1, h2, h3, h4, h5, fun x => (h6 x).trans (h.cover x)⟩
  | .ok (false, w''), ⟨hs, hp, hx⟩ =>
    refine ⟨h.toSafe.trans hs, fun hl => hp (h.policy.trans hl), fun x => ?_⟩
    rw [hx, h.cover]

/-! ### When the loop is sound -/

/-- Policies that keep a held fragment which the new one covers from its first byte on. -/
def FragPolicy.rejects : FragPolicy → Prop
  | .first | .windows | .bsd | .solaris => True
  | .linux | .bsdRight | .last => False

/-- The held fragments that start before `fragEnd`. -/
def inner (fragEnd : ℕ) (rest : List Frag3Frag) : List Frag3Frag :=
  rest.takeWhile fun n => n.offset < fragEnd

/-- The gaps that a fragment fills around held ones: some held fragment reaches its end, or it
has not been moved and the held ones follow on each other, so that only one gap is left after
them. -/
def GapSafe (base fragOffset fragEnd : ℕ) (rest : List Frag3Frag) : Prop :=
  (∃ n ∈ rest, n.offset < fragEnd ∧ fragEnd ≤ n.stop) ∨
    (fragOffset = base ∧ (inner fragEnd rest).IsChain fun a b => a.stop = b.offset)

/-- A held fragment at the very place of the new one: the new one must not have been moved
there, and nothing else may start before its end. -/
def HeadSafe (policy : FragPolicy) (base fragOffset fragEnd : ℕ) (right : Frag3Frag)
    (next : List Frag3Frag) : Prop :=
  (right.stop < fragEnd → fragOffset = base ∧ ∀ n ∈ next, fragEnd ≤ n.offset) ∧
    (policy = .bsd → fragEnd < right.stop → fragOffset = base ∨ fragEnd - base ≤ right.size)

/-- The right-side loop computes every `slide` and `trunc` relative to where the fragment
really starts. -/
def ChunkSafe (policy : FragPolicy) (base fragOffset fragEnd : ℕ) : List Frag3Frag → Prop
  | [] => True
  | right :: next =>
    right.offset < fragEnd →
      if right.offset = fragOffset then
        policy.rejects → HeadSafe policy base fragOffset fragEnd right next
      else policy = .first → GapSafe base fragOffset fragEnd (right :: next)

instance : DecidablePred FragPolicy.rejects
  | .first | .windows | .bsd | .solaris => isTrue trivial
  | .linux | .bsdRight | .last => isFalse id

instance (base fragOffset fragEnd : ℕ) (rest : List Frag3Frag) :
    Decidable (GapSafe base fragOffset fragEnd rest) := by
  unfold GapSafe; infer_instance

instance (policy : FragPolicy) (base fragOffset fragEnd : ℕ) (right : Frag3Frag)
    (next : List Frag3Frag) : Decidable (HeadSafe policy base fragOffset fragEnd right next) := by
  unfold HeadSafe; infer_instance

instance (policy : FragPolicy) (base fragOffset fragEnd : ℕ) :
    DecidablePred (ChunkSafe policy base fragOffset fragEnd)
  | [] => isTrue trivial
  | _ :: _ => by unfold ChunkSafe; infer_instance

section ChunkSafe

variable {policy : FragPolicy} {base fragOffset fragEnd : ℕ} {right : Frag3Frag}
  {next l : List Frag3Frag}

theorem ChunkSafe.of_not_rejects (h : ¬ policy.rejects) :
    ChunkSafe policy base fragOffset fragEnd l := by
  cases l with
  | nil => trivial
  | cons right next =>
    intro _
    split_ifs
    · exact fun hr => absurd hr h
    · rintro rfl
      exact absurd trivial h

theorem ChunkSafe.of_beyond (h : policy ≠ .first) (hl : ∀ n ∈ l, fragOffset < n.offset) :
    ChunkSafe policy base fragOffset fragEnd l := by
  cases l with
  | nil => trivial
  | cons right next =>
    intro _
    rw [if_neg (hl right List.mem_cons_self).ne']
    exact fun hf => absurd hf h

theorem ChunkSafe.head (h : ChunkSafe policy base fragOffset fragEnd (right :: next))
    (hlt : right.offset < fragEnd) (hsame : right.offset = fragOffset) (hr : policy.rejects) :
    HeadSafe policy base fragOffset fragEnd right next := by
  have h := h hlt
  rw [if_pos hsame] at h
  exact h hr

theorem ChunkSafe.gap (h : ChunkSafe policy base fragOffset fragEnd (right :: next))
    (hlt : right.offset < fragEnd) (hne : right.offset ≠ fragOffset) (hp : policy = .first) :
    GapSafe base fragOffset fragEnd (right :: next) := by
  have h := h hlt
  rw [if_neg hne] at h
  exact h hp

theorem fullAction_dump (h : fullAction policy fragOffset fragEnd right = .dump) :
    policy ≠ .first ∧ (¬ policy.rejects ∨ fragOffset < right.offset) := by
  cases policy with
  | first => cases h
  | linux | bsdRight | last => exact ⟨by simp, Or.inl id⟩
  | windows | solaris | bsd =>
    simp only [fullAction] at h
    refine ⟨by simp, Or.inr ?_⟩
    split_ifs at h <;> omega

theorem fullAction_reject (h : fullAction policy fragOffset fragEnd right = .reject)
    (hstop : right.stop ≤ fragEnd) :
    policy.rejects ∧ policy ≠ .last ∧
      (fragOffset < right.offset → policy = .first ∨ right.stop = fragEnd) := by
  cases policy with
  | first => exact ⟨trivial, by simp, fun _ => Or.inl rfl⟩
  | linux | bsdRight | last => cases h
  | windows | solaris | bsd =>
    simp only [fullAction] at h
    refine ⟨trivial, by simp, fun hlt => Or.inr ?_⟩
    split_ifs at h
    omega

end ChunkSafe

/-! ### One round -/

section Rounds

variable {env : Env} {p : Packet} {c : Cut} {w : Walk} {right : Frag3Frag}
  {next : List Frag3Frag}

theorem Walk.nodes_eq (hmid : w.mid = []) : w.nodes = w.before.reverse ++ w.rest := by
  rw [Walk.nodes, hmid, List.append_nil]

/-- Counters and flags that play no part in the layout. -/
theorem Open.of_eq {w' : Walk} (h : Open c w) (hb : w'.before = w.before) (hm : w'.mid = w.mid)
    (hr : w'.rest = w.rest) (ho : w'.fragOffset = w.fragOffset) (hs : w'.slide = w.slide) :
    Open c w' := by
  have hn : w'.nodes = w.nodes := by simp only [Walk.nodes, hb, hm, hr]
  constructor
  · rw [hm, h.mid]
  · rw [hn]; exact h.laid
  · rw [hn]; exact h.bounded
  · rw [hb, ho]; exact h.left
  · rw [hr, ho]; exact h.right
  · rw [hs, ho]; exact h.slide
  · rw [ho]; exact h.base

/-- A covered node is dumped. -/
theorem Open.dump (hw : Open c w) (hrest : w.rest = right :: next)
    (hstop : right.stop ≤ c.fragEnd) (hp : w.ft.fragPolicy ≠ .first) :
    Open c { w.subBytes right.size with rest := next } ∧
      Goes p c w { w.subBytes right.size with rest := next } := by
  have hn : w.nodes = w.before.reverse ++ right :: next := by
    rw [Walk.nodes_eq hw.mid, hrest]
  have hn' : ({ w.subBytes right.size with rest := next } : Walk).nodes =
      w.before.reverse ++ next := Walk.nodes_eq hw.mid
  have hge := hw.right right (by rw [hrest]; exact List.mem_cons_self)
  have hlaid : Laid (w.before.reverse ++ next) := (hn ▸ hw.laid : Laid _).remove
  refine ⟨⟨hw.mid, hn' ▸ hlaid, ?_, hw.left, ?_, hw.slide, hw.base⟩, ?_⟩
  · intro n hmem
    rw [hn'] at hmem
    apply hw.bounded n
    rw [hn]
    exact (List.Sublist.append_left (List.sublist_cons_self right next) _).subset hmem
  · intro n hmem
    exact hw.right n (by rw [hrest]; exact List.mem_cons_of_mem _ hmem)
  · refine ⟨⟨?_, hn' ▸ hlaid, rfl, rfl, rfl, rfl, rfl, fun _ => u32_lt _, ?_⟩, ?_, fun _ => ⟨rfl, rfl⟩⟩
    · rw [hn', hn]
      exact Refit.dump
    · exact fun hf => absurd hf hp
    · intro x
      rw [hn', hn]
      simp only [covers_append, covers_cons, Walk.subBytes]
      constructor
      · rintro ((h | h) | h)
        · exact Or.inl (Or.inl h)
        · exact Or.inl (Or.inr (Or.inr h))
        · exact Or.inr h
      · rintro ((h | h | h) | h)
        · exact Or.inl (Or.inl h)
        · exact Or.inr (by omega)
        · exact Or.inl (Or.inr h)
        · exact Or.inr h

/-- A node that reaches beyond the new fragment loses its front. -/
theorem truncRight_spec (hc : CutOk p c) (hw : Open c w) (ht : w.trunc = 0)
    (hrest : w.rest = right :: next) (hlt : right.offset < c.fragEnd)
    (hov : c.fragEnd < right.stop) (hp : w.ft.fragPolicy ≠ .first) :
    Ready p c w (truncRight right next (c.fragEnd - right.offset) w) := by
  have hn : w.nodes = w.before.reverse ++ right :: next := by
    rw [Walk.nodes_eq hw.mid, hrest]
  have hmem : right ∈ w.rest := by rw [hrest]; exact List.mem_cons_self
  have hge := hw.right right hmem
  have hbd := hw.bounded right (by rw [hn]; simp)
  have h1 := hc.len
  have h2 := hc.fits
  have h3 := hc.fragLength
  have h4 := hc.small
  have h5 := hw.base
  have h6 := hw.slide
  simp only [Frag3Frag.stop] at hov hbd
  have hi : i16 ((c.fragEnd : ℤ) - right.offset) = c.fragEnd - right.offset :=
    i16_of_range (by omega) (by omega)
  let m : Frag3Frag := { right with offset := c.fragEnd, size := right.stop - c.fragEnd,
                                    data := right.data + (c.fragEnd - right.offset) }
  have hms : m.size ≠ 0 := by simp only [m, Frag3Frag.stop]; omega
  have heq : truncRight right next (c.fragEnd - right.offset) w =
      { w.subBytes (c.fragEnd - right.offset) with rest := m :: next } := by
    have ho : u16 (right.offset + ((c.fragEnd : ℤ) - right.offset)) = c.fragEnd :=
      u16_of_eq (by omega) (by omega)
    have hd : ((right.data : ℤ) + (c.fragEnd - right.offset)).toNat = m.data := by
      simp only [m]; omega
    have hz : u16 (right.size - ((c.fragEnd : ℤ) - right.offset)) = m.size :=
      u16_of_eq (by simp only [m, Frag3Frag.stop]; omega) (by simp only [m, Frag3Frag.stop]; omega)
    unfold truncRight
    simp only [hi, ho, hd, hz, if_neg hms]
    rfl
  have hpiece : PieceOf m right := by
    refine ⟨rfl, rfl, hlt.le, ?_, rfl⟩
    simp only [m, Frag3Frag.stop]; omega
  have hn' : ({ w.subBytes (c.fragEnd - right.offset) with rest := m :: next } : Walk).nodes =
      w.before.reverse ++ m :: next := Walk.nodes_eq hw.mid
  have hlaid : Laid (w.before.reverse ++ m :: next) :=
    (hn ▸ hw.laid : Laid _).shrink hpiece.start hpiece.stop
  rw [heq]
  refine ⟨⟨?_, hn' ▸ hlaid, rfl, rfl, rfl, rfl, rfl, fun _ => u32_lt _, ?_⟩, hw.mid, ?_, ?_, ?_,
    fun _ => ⟨rfl, rfl, ht⟩, ?_⟩
  · rw [hn', hn]
    refine Refit.cut hpiece (Nat.pos_of_ne_zero hms) ?_
    simp only [m, Frag3Frag.stop]; omega
  · exact fun hf => absurd hf hp
  · simp only [Walk.subBytes]; omega
  · simp only [Walk.subBytes]; omega
  · simp only [Walk.subBytes]; omega
  · refine Or.inr ⟨hw.slide, hw.base, ?_, hw.left, ?_, ?_⟩
    · simp only [Walk.subBytes]; omega
    · intro n hmem'
      simp only [Walk.subBytes, ht]
      rcases List.mem_cons.1 hmem' with rfl | hmem'
      · simp only [m]; omega
      · have := (tiled_cons.1 (tiled_append.1 hlaid).2.1).1 n hmem'
        simp only [m, Frag3Frag.stop] at this
        omega
    · intro x
      rw [hn', hn]
      simp only [covers_append, covers_cons, Walk.subBytes, ht, m, Frag3Frag.stop]
      constructor
      · rintro ((h | h | h) | h)
        · exact Or.inl (Or.inl h)
        · exact Or.inl (Or.inr (Or.inl (by omega)))
        · exact Or.inl (Or.inr (Or.inr h))
        · exact Or.inr (by omega)
      · rintro ((h | h | h) | h)
        · exact Or.inl (Or.inl h)
        · by_cases hx : x < c.fragEnd
          · exact Or.inr (by omega)
          · exact Or.inl (Or.inr (Or.inl (by omega)))
        · exact Or.inl (Or.inr (Or.inr h))
        · exact Or.inr (by omega)

/-- Nothing in the list changes; the new fragment loses its end, or all that is left of it. -/
theorem Open.ready (hc : CutOk p c) (hw : Open c w) {t : ℤ} (ht : 0 ≤ t)
    (hrest : w.rest = right :: next) (hro : (right.offset : ℤ) = c.fragEnd - t)
    (hov : c.fragEnd < right.stop) (hp : w.ft.fragPolicy ≠ .last) :
    Ready p c w { w with trunc := t } := by
  have hge := hw.right right (by rw [hrest]; exact List.mem_cons_self)
  have h1 := hc.len
  have h2 := hc.fits
  have h3 := hc.fragLength
  have h4 := hc.small
  have h5 := hw.base
  have h6 := hw.slide
  refine ⟨⟨Refit.refl _ _ _, hw.laid, rfl, rfl, rfl, rfl, rfl, fun h => h, fun _ n hn => hn⟩, hw.mid,
    by simp only; omega, ht, by simp only; omega, fun h => absurd h hp, ?_⟩
  by_cases hleft : c.len ≤ w.slide + t
  · exact Or.inl hleft
  · refine Or.inr ⟨hw.slide, hw.base, by simp only; omega, hw.left, ?_, ?_⟩
    · have hn : w.nodes = w.before.reverse ++ right :: next := by
        rw [Walk.nodes_eq hw.mid, hrest]
      have hlaid := tiled_cons.1 (tiled_append.1 (hn ▸ hw.laid : Laid _)).2.1
      intro n hmem
      have hmem : n ∈ right :: next := hrest ▸ hmem
      simp only
      rcases List.mem_cons.1 hmem with rfl | hmem
      · omega
      · have := hlaid.1 n hmem
        omega
    · intro x
      show (Held w.nodes x ∨ _) ↔ (Held w.nodes x ∨ _)
      have hright : ∀ y, right.offset ≤ y → y < right.stop → Held w.nodes y := by
        intro y hy hy'
        refine ⟨right, ?_, hy, hy'⟩
        rw [Walk.nodes_eq hw.mid, hrest]
        simp
      simp only
      constructor
      · rintro (h | h)
        · exact Or.inl h
        · exact Or.inr (by omega)
      · rintro (h | h)
        · exact Or.inl h
        · by_cases hx : x < right.offset
          · exact Or.inr (by omega)
          · exact Or.inl (hright x (by omega) (by omega))

/-- No held fragment starts before the end of the new one. -/
theorem Open.ready_end (hc : CutOk p c) (hw : Open c w) (ht : w.trunc = 0)
    (hend : w.fragOffset ≤ c.fragEnd) (hge : ∀ n ∈ w.rest, c.fragEnd ≤ n.offset) :
    Ready p c w w := by
  have h1 := hc.len
  have h2 := hc.fits
  have h3 := hc.fragLength
  have h4 := hc.small
  have h5 := hw.base
  have h6 := hw.slide
  refine ⟨⟨Refit.refl _ _ _, hw.laid, rfl, rfl, rfl, rfl, rfl, fun h => h, fun _ n hn => hn⟩, hw.mid,
    by omega, by omega, by omega, fun _ => ⟨rfl, rfl, ht⟩, ?_⟩
  by_cases hleft : c.len ≤ w.slide + w.trunc
  · exact Or.inl hleft
  · refine Or.inr ⟨hw.slide, hw.base, by omega, hw.left, ?_, ?_⟩
    · intro n hn
      have := hge n hn
      omega
    · intro x
      rw [ht]
      simp only [sub_zero, Nat.cast_lt]

/-- The round that meets a node reaching beyond the new fragment. -/
theorem partialOverlap_ready (hc : CutOk p c) (hw : Open c w) (ht : w.trunc = 0)
    (hrest : w.rest = right :: next) (hlt : right.offset < c.fragEnd)
    (hov : c.fragEnd < right.stop)
    (hsafe : ChunkSafe w.ft.fragPolicy c.fragOffset w.fragOffset c.fragEnd w.rest) :
    Ready p c w (partialOverlap right next (c.fragEnd - right.offset) w) := by
  have hge := hw.right right (by rw [hrest]; exact List.mem_cons_self)
  have h1 := hc.len
  have h2 := hc.fits
  have h3 := hc.fragLength
  have h4 := hc.small
  have h5 := hw.base
  have hi : i16 ((c.fragEnd : ℤ) - right.offset) = c.fragEnd - right.offset :=
    i16_of_range (by omega) (by omega)
  have hkeep : w.ft.fragPolicy ≠ .last →
      Ready p c w { w with trunc := i16 ((c.fragEnd : ℤ) - right.offset) } := fun hp =>
    hw.ready hc (by omega) hrest (by omega) hov hp
  unfold partialOverlap
  cases hpol : w.ft.fragPolicy with
  | last => exact truncRight_spec hc hw ht hrest hlt hov (by simp [hpol])
  | linux => exact truncRight_spec hc hw ht hrest hlt hov (by simp [hpol])
  | first => exact hkeep (by simp [hpol])
  | windows => exact hkeep (by simp [hpol])
  | solaris => exact hkeep (by simp [hpol])
  | bsdRight => exact hkeep (by simp [hpol])
  | bsd =>
    simp only
    split_ifs with hsame
    · -- the held fragment has the same offset and is longer: nothing of the new one is left
      rw [hrest, hpol] at hsafe
      simp only [ChunkSafe] at hsafe
      have hhead := ((if_pos hsame ▸ hsafe hlt : _) trivial : HeadSafe _ _ _ _ _ _).2 rfl hov
      have hbd := hw.bounded right (by rw [Walk.nodes_eq hw.mid, hrest]; simp)
      simp only [Frag3Frag.stop] at hov hbd hhead ⊢
      have hs : i16 (((right.offset + right.size : ℕ) : ℤ) - w.fragOffset) = right.size := by
        rw [i16_of_range] <;> omega
      refine ⟨⟨Refit.refl _ _ _, hw.laid, rfl, rfl, rfl, rfl, rfl, fun h => h, fun _ n hn => hn⟩,
        hw.mid, ?_, ?_, ?_, fun h => absurd h (by simp [hpol]), Or.inl ?_⟩
      · simp only [hs]; omega
      · simp only [ht]; omega
      · simp only [hs, ht]; omega
      · simp only [hs, ht]
        rcases hhead with h | h <;> omega
    · exact truncRight_spec hc hw ht hrest hlt hov (by simp [hpol])

end Rounds

/-! ### Stepping over held fragments -/

/-- Where `nextGap` stops, when it starts behind the node `l`: the nodes stepped over are moved
before the walk's position, they follow on each other from `l`, and the next node does not. -/
theorem nextGap_spec (fragEnd : ℕ) (rest : List Frag3Frag) :
    ∀ (before : List Frag3Frag) (l : Frag3Frag), Laid (l :: rest) → Bounded (l :: rest) →
    ∃ l' b' r', nextGap fragEnd l.stop (l :: before) [] rest = (l'.stop, l' :: b', [], r') ∧
      (l' :: b').reverse ++ r' = (l :: before).reverse ++ rest ∧
      l' ∈ l :: rest ∧ l.stop ≤ l'.stop ∧ Laid (l' :: r') ∧
      (∀ m ∈ rest, m ∈ r' ∨ m.stop ≤ l'.stop) ∧
      (∀ x, l.stop ≤ x → x < l'.stop → Held rest x) ∧ r'.length ≤ rest.length ∧
      (∀ m ms, r' = m :: ms → m.offset < fragEnd → l'.stop < m.offset) ∧
      ((l :: inner fragEnd rest).IsChain (fun a b => a.stop = b.offset) →
        ∀ m ms, r' = m :: ms → fragEnd ≤ m.offset) := by
  induction rest with
  | nil =>
    intro before l hl _
    refine ⟨l, before, [], rfl, rfl, List.mem_cons_self, le_rfl, hl, by simp, ?_, le_rfl, ?_, ?_⟩
    · intro x h1 h2; omega
    · intro m ms h; cases h
    · intro _ m ms h; cases h
  | cons right next ih =>
    intro before l hl hb
    obtain ⟨hle, hl'⟩ := tiled_cons.1 hl
    have hright := hle right List.mem_cons_self
    by_cases hcond : l.stop = right.offset ∧ right.offset < fragEnd
    · have hbr := hb right (List.mem_cons_of_mem _ List.mem_cons_self)
      have hu : u16 right.stop = right.stop := u16_of_eq rfl (by omega)
      obtain ⟨l', b', r', h1, h2, h3, h4, h5, h6, h7, h8, h9, h10⟩ :=
        ih (l :: before) right hl' fun n hn => hb n (List.mem_cons_of_mem _ hn)
      refine ⟨l', b', r', ?_, ?_, List.mem_cons_of_mem _ h3, ?_, h5, ?_, ?_, ?_, h9, ?_⟩
      · rw [nextGap, if_pos hcond, hu]
        exact h1
      · rw [h2]; simp
      · simp only [Frag3Frag.stop] at *; omega
      · intro m hm
        rcases List.mem_cons.1 hm with rfl | hm
        · exact Or.inr h4
        · exact h6 m hm
      · intro x hx hx'
        by_cases hxr : x < right.stop
        · exact (covers_cons _ _ _).2 (Or.inl ⟨by omega, hxr⟩)
        · exact (covers_cons _ _ _).2 (Or.inr (h7 x (by omega) hx'))
      · rw [List.length_cons]; omega
      · intro hchain
        apply h10
        have hin : inner fragEnd (right :: next) = right :: inner fragEnd next := by
          simp only [inner, List.takeWhile_cons, hcond.2, decide_true, if_true]
        rw [hin] at hchain
        exact hchain.tail
    · refine ⟨l, before, right :: next, ?_, rfl, List.mem_cons_self, le_rfl, hl, ?_, ?_, le_rfl, ?_, ?_⟩
      · rw [nextGap, if_neg hcond]
      · exact fun m hm => Or.inl hm
      · intro x h1 h2; omega
      · intro m ms h hlt
        cases h
        omega
      · intro hchain m ms h
        cases h
        by_contra hlt
        have hin : inner fragEnd (right :: next) = right :: inner fragEnd next := by
          simp only [inner, List.takeWhile_cons, Nat.lt_of_not_le hlt, decide_true, if_true]
        rw [hin] at hchain
        have := (List.isChain_cons_cons.1 hchain).1
        omega

/-! ### Inserting in chunks -/

/-- What one rejecting round has done. -/
def RejectPost (p : Packet) (c : Cut) (w : Walk) :
    Except (InsertRet × Walk) (ChunkNext × Walk) → Prop
  | .error (ret, w') => ret ≠ .ok ∧ Safe (whole p c) w w'
  | .ok (.again, w') => Goes p c w w' ∧ Open c w' ∧ w'.rest.length < w.rest.length ∧
      w'.trunc = 0 ∧ w'.fragOffset ≤ c.fragEnd ∧
      ChunkSafe w.ft.fragPolicy c.fragOffset w'.fragOffset c.fragEnd w'.rest
  | .ok (.leave addthis, w') => LoopPost p c w (.ok (addthis, w'))

section Chunks

variable {env : Env} {p : Packet} {c : Cut} {w : Walk} {right : Frag3Frag}
  {next : List Frag3Frag}

/-- The walk behind a held fragment that is kept. -/
def behindWalk (w : Walk) (right : Frag3Frag) (next : List Frag3Frag) : Walk :=
  { w with slide := right.stop - w.fragOffset, fragOffset := right.stop,
           before := right :: w.before, mid := [], rest := next }

variable (env) in
/-- A held fragment at the same offset is kept; the new one goes on behind it, as one chunk. -/
theorem rejectOverlap_behind (hc : CutOk p c) (hw : Open c w) (ht : w.trunc = 0)
    (hrest : w.rest = right :: next) (hsame : right.offset = w.fragOffset)
    (hstop : right.stop ≤ c.fragEnd)
    (hsafe : right.stop < c.fragEnd →
      w.fragOffset = c.fragOffset ∧ ∀ n ∈ next, c.fragEnd ≤ n.offset) :
    (∃ ret, ret ≠ .ok ∧ rejectOverlap env p c right next w = .error (ret, behindWalk w right next)) ∨
      right.stop < c.fragEnd ∧ ∃ n, n.offset = right.stop ∧ n.stop = c.fragEnd ∧
        PieceOf n (whole p c) ∧
        rejectOverlap env p c right next w = .ok (.leave false,
          { behindWalk w right next with
            mid := [n]
            ft := { w.ft with ordinal := w.ft.ordinal + 1,
                              fragBytes := u32 (w.ft.fragBytes + n.size) } }) := by
  have h1 := hc.len
  have h2 := hc.fits
  have h3 := hc.fragLength
  have h4 := hc.small
  have h5 := hw.base
  have h6 := hc.bound
  have hs : i16 ((right.stop : ℤ) - w.fragOffset) = right.stop - w.fragOffset :=
    i16_of_range (by simp only [Frag3Frag.stop]; omega) (by omega)
  have ho : u16 (w.fragOffset + ((right.stop : ℤ) - w.fragOffset)) = right.stop :=
    u16_of_eq (by omega) (by omega)
  have htrim : rejectTrim c right next w = behindWalk w right next := by
    simp only [rejectTrim, if_pos hsame, hs, ho, hw.mid, List.reverse_nil, List.nil_append,
      behindWalk]
  rw [rejectOverlap, htrim]
  by_cases hend : (c.fragEnd : ℤ) - (behindWalk w right next).trunc ≤
      (behindWalk w right next).fragOffset
  · rw [if_pos hend]
    exact Or.inl ⟨_, by simp, rfl⟩
  rw [if_neg hend]
  simp only [behindWalk] at hend
  obtain ⟨hbase, hnext⟩ := hsafe (by omega)
  rcases addFragNode_cases env false (p := p) (c := c) (w := behindWalk w right next) hc
    (by simp only [behindWalk]; omega) (by simp only [behindWalk, Frag3Frag.stop]; omega)
    (by simp only [behindWalk]; omega) (by simp only [behindWalk]; omega) with
    hadd | ⟨n, hno, hns, hnp, hadd⟩
  · rw [hadd]
    exact Or.inl ⟨_, by simp, rfl⟩
  · have hns' : n.stop = c.fragEnd := by simp only [behindWalk] at hns; omega
    have hun : u16 (n.stop : ℤ) = n.stop := u16_of_eq rfl (by omega)
    have hgap : nextGap c.fragEnd n.stop (right :: w.before) [n] next =
        (n.stop, right :: w.before, [n], next) := by
      cases next with
      | nil => rfl
      | cons m ms =>
        have := hnext m List.mem_cons_self
        rw [nextGap, if_neg (by omega)]
    have hmore : startsBefore c.fragEnd next = false := by
      cases next with
      | nil => rfl
      | cons m ms =>
        have := hnext m List.mem_cons_self
        simp only [startsBefore, decide_eq_false_iff_not]
        omega
    refine Or.inr ⟨by omega, n, hno, hns', hnp, ?_⟩
    rw [hadd]
    simp only [afterChunk, hun, behindWalk, hgap, hmore, Bool.false_eq_true, if_false]
    rw [if_neg (by omega)]

/-- A held fragment at the same offset is kept. -/
theorem rejectOverlap_same (hc : CutOk p c) (hw : Open c w) (ht : w.trunc = 0)
    (hrest : w.rest = right :: next) (hsame : right.offset = w.fragOffset)
    (hstop : right.stop ≤ c.fragEnd) (hpol : w.ft.fragPolicy ≠ .last)
    (hsafe : right.stop < c.fragEnd →
      w.fragOffset = c.fragOffset ∧ ∀ n ∈ next, c.fragEnd ≤ n.offset) :
    RejectPost p c w (rejectOverlap env p c right next w) := by
  have hn : w.nodes = w.before.reverse ++ right :: next := by
    rw [Walk.nodes_eq hw.mid, hrest]
  rcases rejectOverlap_behind env hc hw ht hrest hsame hstop hsafe with
    ⟨ret, hne, heq⟩ | ⟨hlt, n, hno', hns', hnp, heq⟩
  · have hnodes : (behindWalk w right next).nodes = w.nodes := by
      rw [hn]; simp [behindWalk, Walk.nodes]
    rw [heq]
    exact ⟨hne, hnodes ▸ Refit.refl _ _ _, hnodes ▸ hw.laid, rfl, rfl, rfl, rfl, rfl, fun h => h,
      fun _ n hn => hnodes ▸ hn⟩
  · have hnext := (hsafe hlt).2
    rw [heq]
    have hn2 : w.nodes = (w.before.reverse ++ [right]) ++ next := by rw [hn]; simp
    have hnpos : 0 < n.size := by simp only [Frag3Frag.stop] at *; omega
    have hlaid : Laid ((w.before.reverse ++ [right]) ++ n :: next) := by
      refine (hn2 ▸ hw.laid : Laid _).insert ?_ ?_
      · intro a ha
        rcases List.mem_append.1 ha with ha | ha
        · have := hw.left a (List.mem_reverse.1 ha)
          simp only [Frag3Frag.stop] at *
          omega
        · rw [List.mem_singleton.1 ha]; omega
      · intro b hb
        have := hnext b hb
        omega
    refine ⟨Safe.of_nodes (hn2 ▸ Refit.add hnp hnpos) hlaid (fun _ m hm => ?_) ?_ rfl rfl rfl rfl
      rfl rfl (u32_lt (w.ft.fragBytes + n.size)), hpol, fun x => ?_⟩
    · rw [hn2] at hm
      rcases List.mem_append.1 hm with hm | hm
      · exact List.mem_append_left _ hm
      · exact List.mem_append_right _ (List.mem_cons_of_mem _ hm)
    · simp [Walk.nodes, behindWalk]
    · simp only [Walk.nodes, behindWalk, hrest, hw.mid, covers_append, covers_cons, covers_nil,
        covers_reverse, or_false]
      simp only [Frag3Frag.stop] at *
      constructor
      · rintro (((h | h) | h) | h)
        · exact Or.inl (Or.inr (Or.inl h))
        · exact Or.inl (Or.inl h)
        · exact Or.inr (by omega)
        · exact Or.inl (Or.inr (Or.inr h))
      · rintro ((h | h | h) | h)
        · exact Or.inl (Or.inl (Or.inr h))
        · exact Or.inl (Or.inl (Or.inl h))
        · exact Or.inr h
        · by_cases hx : x < right.offset + right.size
          · exact Or.inl (Or.inl (Or.inl (by omega)))
          · exact Or.inl (Or.inr (by omega))

/-- Where the walk stands behind a chunk `n` that fills the gap before `right`: at the node `l'`,
before `r'`. -/
structure Chunked (p : Packet) (c : Cut) (w : Walk) (right : Frag3Frag) (next : List Frag3Frag)
    (n l' : Frag3Frag) (b' r' : List Frag3Frag) : Prop where
  offset : n.offset = w.fragOffset
  stop : n.stop = right.offset
  piece : PieceOf n (whole p c)
  nodes : (l' :: b').reverse ++ r' = (right :: n :: w.before).reverse ++ next
  mem : l' ∈ right :: next
  le : right.stop ≤ l'.stop
  laid : Laid (l' :: r')
  split : ∀ m ∈ next, m ∈ r' ∨ m.stop ≤ l'.stop
  cover : ∀ x, right.stop ≤ x → x < l'.stop → Held next x
  length : r'.length ≤ next.length
  head : ∀ m ms, r' = m :: ms → m.offset < c.fragEnd → l'.stop < m.offset
  chain : (right :: inner c.fragEnd next).IsChain (fun a b => a.stop = b.offset) →
    ∀ m ms, r' = m :: ms → c.fragEnd ≤ m.offset

/-- The walk behind a chunk, before it is decided how the loop goes on. -/
def chunkWalk (w : Walk) (c : Cut) (right n l' : Frag3Frag) (b' r' : List Frag3Frag) : Walk :=
  { w with
    trunc := c.fragEnd - right.offset
    before := l' :: b'
    mid := []
    rest := r'
    ft := { w.ft with ordinal := w.ft.ordinal + 1, fragBytes := u32 (w.ft.fragBytes + n.size) } }

variable (env) in
/-- The chunk that fills the gap before a held fragment, and the walk behind it. -/
theorem rejectOverlap_chunk (hc : CutOk p c) (hw : Open c w)
    (hrest : w.rest = right :: next) (hgt : w.fragOffset < right.offset)
    (hlt : right.offset < c.fragEnd) :
    rejectOverlap env p c right next w =
        .error (.failed, { w with trunc := (c.fragEnd : ℤ) - right.offset }) ∨
      ∃ n l' b' r', Chunked p c w right next n l' b' r' ∧
        rejectOverlap env p c right next w = .ok
          (if startsBefore c.fragEnd r' then
            (.again, { chunkWalk w c right n l' b' r' with
              fragOffset := l'.stop, slide := i16 (l'.stop - c.origOffset), trunc := 0 })
          else if l'.stop < c.fragEnd then
            (.leave true, { chunkWalk w c right n l' b' r' with
              fragOffset := l'.stop, slide := i16 (l'.stop - w.fragOffset), trunc := 0 })
          else (.leave false, chunkWalk w c right n l' b' r')) := by
  have hn : w.nodes = w.before.reverse ++ right :: next := by
    rw [Walk.nodes_eq hw.mid, hrest]
  have h1 := hc.len
  have h2 := hc.fits
  have h3 := hc.fragLength
  have h4 := hc.small
  have h5 := hw.base
  have h6 := hc.bound
  have ht : i16 ((c.fragEnd : ℤ) - right.offset) = c.fragEnd - right.offset :=
    i16_of_range (by omega) (by omega)
  let w₁ : Walk := { w with trunc := c.fragEnd - right.offset }
  have htrim : rejectTrim c right next w = w₁ := by
    simp only [rejectTrim, if_neg hgt.ne', ht, w₁]
  rw [rejectOverlap, htrim]
  rw [if_neg (by simp only [w₁]; omega)]
  rcases addFragNode_cases env false (p := p) (c := c) (w := w₁) hc
    hw.slide hw.base (by simp only [w₁]; omega) (by simp only [w₁]; omega) with
    hadd | ⟨n, hno, hns, hnp, hadd⟩
  · rw [hadd]
    exact Or.inl rfl
  refine Or.inr ?_
  have hno' : n.offset = w.fragOffset := hno
  have hns' : n.stop = right.offset := by simp only [w₁] at hns; omega
  have hun : u16 (n.stop : ℤ) = right.offset := u16_of_eq (by omega) (by omega)
  have hlaidw : Laid (w.before.reverse ++ right :: next) := hn ▸ hw.laid
  have hlr : Laid (right :: next) := (tiled_append.1 hlaidw).2.1
  have hbr : Bounded (right :: next) := fun m hm => hw.bounded m (by
    rw [hn]; exact List.mem_append_right _ hm)
  have hrb := hbr right List.mem_cons_self
  have hru : u16 (right.stop : ℤ) = right.stop := u16_of_eq rfl (by omega)
  obtain ⟨l', b', r', hgap, hnodes, hl', hle, hlr', hsplit, hcov, hlen, hhead, hchain⟩ :=
    nextGap_spec c.fragEnd next (n :: w.before) right hlr hbr
  have hgap' : nextGap c.fragEnd right.offset w.before [n] (right :: next) =
      (l'.stop, l' :: b', [], r') := by
    rw [nextGap, if_pos ⟨rfl, hlt⟩, hru]
    exact hgap
  have hl'b := hbr l' hl'
  have hl'u : u16 (l'.stop : ℤ) = l'.stop := u16_of_eq rfl (by omega)
  refine ⟨n, l', b', r', ⟨hno', hns', hnp, hnodes, hl', hle, hlr', hsplit, hcov, hlen, hhead,
    hchain⟩, ?_⟩
  rw [hadd]
  simp only [afterChunk, hun, w₁, hw.mid, hrest, hgap', hl'u, chunkWalk]

/-- The new fragment starts before the held one: a chunk fills the gap between them. -/
theorem rejectOverlap_gap (hc : CutOk p c) (hw : Open c w)
    (hrest : w.rest = right :: next) (hgt : w.fragOffset < right.offset)
    (hlt : right.offset < c.fragEnd) (hstop : right.stop ≤ c.fragEnd)
    (hpol : w.ft.fragPolicy ≠ .last)
    (horig : w.ft.fragPolicy = .first → c.origOffset = c.fragOffset)
    (hsafe : (w.ft.fragPolicy = .first ∧
        GapSafe c.fragOffset w.fragOffset c.fragEnd (right :: next)) ∨ right.stop = c.fragEnd) :
    RejectPost p c w (rejectOverlap env p c right next w) := by
  have hn : w.nodes = w.before.reverse ++ right :: next := by
    rw [Walk.nodes_eq hw.mid, hrest]
  have h1 := hc.len
  have h2 := hc.fits
  have h3 := hc.fragLength
  have h4 := hc.small
  have h5 := hw.base
  have h6 := hc.bound
  rcases rejectOverlap_chunk env hc hw hrest hgt hlt with
    heq | ⟨n, l', b', r', hchunk, heq⟩
  · rw [heq]
    exact ⟨by simp, Refit.refl _ _ _, hw.laid, rfl, rfl, rfl, rfl, rfl, fun h => h,
      fun _ n hn => hn⟩
  obtain ⟨hno', hns', hnp, hnodes, hl', hle, hlr', hsplit, hcov, hlen, hhead, hchain⟩ := hchunk
  have hnpos : 0 < n.size := by simp only [Frag3Frag.stop] at *; omega
  have hlaidw : Laid (w.before.reverse ++ right :: next) := hn ▸ hw.laid
  have hlaid : Laid (w.before.reverse ++ n :: right :: next) := by
    refine hlaidw.insert ?_ ?_
    · intro a ha
      have := hw.left a (List.mem_reverse.1 ha)
      omega
    · intro b hb
      rcases List.mem_cons.1 hb with rfl | hb
      · omega
      · have := (tiled_cons.1 (tiled_append.1 hlaidw).2.1).1 b hb
        simp only [Frag3Frag.stop] at *
        omega
  have hbr : Bounded (right :: next) := fun m hm => hw.bounded m (by
    rw [hn]; exact List.mem_append_right _ hm)
  have hl'b := hbr l' hl'
  -- the list is the same in all three ways out
  have hnodes' : ∀ w' : Walk, w'.before = l' :: b' → w'.mid = [] → w'.rest = r' →
      w'.nodes = w.before.reverse ++ n :: right :: next := by
    intro w' hb hm hr
    rw [Walk.nodes_eq hm, hb, hr, hnodes]
    simp
  have hrefit : Refit (whole p c) w.ft.fragBytes w.nodes (u32 (w.ft.fragBytes + n.size))
      (w.before.reverse ++ n :: right :: next) := hn ▸ Refit.add hnp hnpos
  have hkeep : ∀ m ∈ w.nodes, m ∈ w.before.reverse ++ n :: right :: next := by
    intro m hm
    rw [hn] at hm
    rcases List.mem_append.1 hm with hm | hm
    · exact List.mem_append_left _ hm
    · exact List.mem_append_right _ (List.mem_cons_of_mem _ hm)
  have hsafe' : ∀ w' : Walk, w'.before = l' :: b' → w'.mid = [] → w'.rest = r' →
      w'.ft.fragBytes = u32 (w.ft.fragBytes + n.size) →
      w'.ft.calculatedSize = w.ft.calculatedSize → w'.ft.gotFirst = w.ft.gotFirst →
      w'.ft.gotLast = w.ft.gotLast → w'.ft.fragPolicy = w.ft.fragPolicy →
      w'.ft.fragTime = w.ft.fragTime → Safe (whole p c) w w' :=
    fun w' hb hm hr h7 h8 h9 h10 h11 h12 =>
      Safe.of_nodes hrefit hlaid (fun _ => hkeep) (hnodes' w' hb hm hr) h7 h8 h9 h10 h11 h12
        (u32_lt _)
  have hcovn : ∀ w' : Walk, w'.before = l' :: b' → w'.mid = [] → w'.rest = r' → ∀ x,
      Held w'.nodes x ↔ Held w.nodes x ∨ (w.fragOffset ≤ x ∧ x < right.offset) := by
    intro w' hb hm hr x
    rw [hnodes' w' hb hm hr, hn]
    simp only [covers_append, covers_cons, hno', hns']
    constructor
    · rintro (h | h | h | h)
      · exact Or.inl (Or.inl h)
      · exact Or.inr h
      · exact Or.inl (Or.inr (Or.inl h))
      · exact Or.inl (Or.inr (Or.inr h))
    · rintro ((h | h | h) | h)
      · exact Or.inl h
      · exact Or.inr (Or.inr (Or.inl h))
      · exact Or.inr (Or.inr (Or.inr h))
      · exact Or.inr (Or.inl h)
  have hrun : ∀ x, right.offset ≤ x → x < l'.stop → Held w.nodes x := by
    intro x hx hx'
    simp only [hn, covers_append, covers_cons]
    by_cases hxr : x < right.stop
    · exact Or.inr (Or.inl ⟨hx, hxr⟩)
    · exact Or.inr (Or.inr (hcov x (by omega) hx'))
  have hro : right.offset ≤ l'.stop := (Nat.le_add_right _ _).trans hle
  -- behind the last node stepped over, together with what was covered before
  have hcover : ∀ w' : Walk, w'.before = l' :: b' → w'.mid = [] → w'.rest = r' → ∀ x,
      (Held w'.nodes x ∨ (l'.stop ≤ x ∧ x < c.fragEnd)) ↔
        (Held w.nodes x ∨ (w.fragOffset ≤ x ∧ x < c.fragEnd)) := by
    intro w' hb hm hr x
    rw [hcovn w' hb hm hr]
    constructor
    · rintro ((h | h) | h)
      · exact Or.inl h
      · exact Or.inr (by omega)
      · exact Or.inr (by omega)
    · rintro (h | h)
      · exact Or.inl (Or.inl h)
      · by_cases hx : x < right.offset
        · exact Or.inl (Or.inr (by omega))
        · by_cases hx' : x < l'.stop
          · exact Or.inl (Or.inl (hrun x (by omega) hx'))
          · exact Or.inr (by omega)
  have hbefore : ∀ m ∈ l' :: b', m.stop ≤ l'.stop := by
    intro m hm
    rcases List.mem_cons.1 hm with rfl | hm
    · exact le_rfl
    · have hl2 : Laid (b'.reverse ++ (l' :: r')) := by
        have : (l' :: b').reverse ++ r' = b'.reverse ++ (l' :: r') := by simp
        rw [← this, hnodes]
        simpa using hlaid
      have := (tiled_append.1 hl2).2.2 m (List.mem_reverse.2 hm) l' List.mem_cons_self
      simp only [Frag3Frag.stop] at *
      omega
  have hopen : ∀ w' : Walk, w'.before = l' :: b' → w'.mid = [] → w'.rest = r' →
      Safe (whole p c) w w' → w'.fragOffset = l'.stop → w'.slide = l'.stop - c.fragOffset →
      Open c w' := by
    intro w' hb hm hr hs ho hsl
    refine ⟨hm, hs.laid, hs.refit.bounded hw.bounded hc.whole_bounded, ?_, ?_, ?_, ?_⟩
    · rw [hb, ho]; exact hbefore
    · rw [hr, ho]; exact (tiled_cons.1 hlr').1
    · rw [hsl, ho]
    · rw [ho]; omega
  have hfull : c.fragEnd ≤ l'.stop → ∀ w' : Walk, w'.before = l' :: b' → w'.mid = [] →
      w'.rest = r' → ∀ x, Held w'.nodes x ↔
        (Held w.nodes x ∨ (w.fragOffset ≤ x ∧ x < c.fragEnd)) := by
    intro hle' w' hb hm hr x
    rw [← hcover w' hb hm hr x]
    constructor
    · exact Or.inl
    · rintro (h | h)
      · exact h
      · omega
  rw [heq]
  split_ifs with hmore hcurr
  · -- a further gap
    obtain ⟨m, ms, rfl⟩ : ∃ m ms, r' = m :: ms := by
      cases r' with
      | nil => cases hmore
      | cons m ms => exact ⟨m, ms, rfl⟩
    have hmlt : m.offset < c.fragEnd := by simpa [startsBefore] using hmore
    have hml := hhead m ms rfl hmlt
    have hfirst : w.ft.fragPolicy = .first := by
      rcases hsafe with h | h
      · exact h.1
      · omega
    have horig' := horig hfirst
    have hsl : i16 ((l'.stop : ℤ) - c.origOffset) = l'.stop - c.fragOffset := by
      rw [horig', i16_of_range] <;> omega
    refine ⟨⟨hsafe' _ rfl rfl rfl rfl rfl rfl rfl rfl rfl, hcover _ rfl rfl rfl,
      fun h => absurd h hpol⟩,
      hopen _ rfl rfl rfl (hsafe' _ rfl rfl rfl rfl rfl rfl rfl rfl rfl) rfl hsl, ?_, rfl, ?_, ?_⟩
    · rw [hrest, List.length_cons]
      exact Nat.lt_succ_of_le hlen
    · exact (hml.trans hmlt).le
    · intro _
      rw [if_neg hml.ne']
      intro _
      refine Or.inl ?_
      rcases hsafe with ⟨-, hg⟩ | h
      · rcases hg with ⟨k, hk, hk1, hk2⟩ | ⟨-, hg⟩
        · rcases List.mem_cons.1 hk with rfl | hk
          · omega
          · rcases hsplit k hk with hk' | hk'
            · exact ⟨k, hk', hk1, hk2⟩
            · omega
        · have hin : inner c.fragEnd (right :: next) = right :: inner c.fragEnd next := by
            simp only [inner, List.takeWhile_cons, hlt, decide_true, if_true]
          rw [hin] at hg
          have := hchain hg m ms rfl
          omega
      · omega
  · -- the rest of the fragment goes behind the last node stepped over
    have hr' : ∀ m ∈ r', c.fragEnd ≤ m.offset := by
      intro m hm
      cases r' with
      | nil => cases hm
      | cons k ks =>
        have hk : ¬ k.offset < c.fragEnd := by simpa [startsBefore] using hmore
        rcases List.mem_cons.1 hm with rfl | hm
        · omega
        · have := (tiled_cons.1 (tiled_cons.1 hlr').2).1 m hm
          simp only [Frag3Frag.stop] at *
          omega
    have hbase : w.fragOffset = c.fragOffset := by
      rcases hsafe with ⟨-, hg⟩ | h
      · rcases hg with ⟨k, hk, hk1, hk2⟩ | ⟨hg, -⟩
        · rcases List.mem_cons.1 hk with rfl | hk
          · omega
          · rcases hsplit k hk with hk' | hk'
            · have := hr' k hk'; omega
            · omega
        · exact hg
      · omega
    have hsl : i16 ((l'.stop : ℤ) - w.fragOffset) = l'.stop - c.fragOffset := by
      rw [hbase, i16_of_range] <;> omega
    refine ⟨hsafe' _ rfl rfl rfl rfl rfl rfl rfl rfl rfl, rfl, ?_, le_rfl, ?_,
      fun h => absurd h hpol, Or.inr ⟨hsl, ?_, ?_, hbefore, ?_, ?_⟩⟩
    · simp only [hsl]; omega
    · simp only [hsl]; omega
    · simp only; omega
    · simp only; omega
    · intro m hm
      have := hr' m hm
      simp only
      omega
    · intro x
      simp only [sub_zero, Nat.cast_lt]
      exact hcover _ rfl rfl rfl x
  · -- held fragments reach the end of the new one
    exact ⟨hsafe' _ rfl rfl rfl rfl rfl rfl rfl rfl rfl, hpol,
      hfull (by omega) _ rfl rfl rfl⟩

end Chunks

/-! ### The loop -/

section Loop

variable {env : Env} {ctx : Frag3Context} {p : Packet} {c : Cut} {w : Walk} {right : Frag3Frag}
  {next : List Frag3Frag} {fuel : ℕ}

theorem rightLoop_nil (h : w.rest = []) :
    rightLoop env ctx p c (fuel + 1) w = .ok (true, w) := by
  rw [rightLoop, h]

theorem Walk.alertOverlap_eqs (ctx : Frag3Context) (w : Walk) :
    (w.alertOverlap ctx).rest = w.rest ∧ (w.alertOverlap ctx).fragOffset = w.fragOffset ∧
      (w.alertOverlap ctx).trunc = w.trunc ∧
      (w.alertOverlap ctx).ft.fragPolicy = w.ft.fragPolicy := by
  unfold Walk.alertOverlap
  split_ifs <;> exact ⟨rfl, rfl, rfl, rfl⟩

/-- A round of the loop. -/
theorem rightLoop_round (h : w.rest = right :: next) :
    rightLoop env ctx p c (fuel + 1) w =
      if right.offset < c.fragEnd then
        if (c.fragEnd : ℤ) - right.offset ≠ 0 ∧ teardrop p c w.ft then
          .error (.attack, { w with trunc := 0 }.setBad)
        else if (c.fragEnd : ℤ) - right.offset < right.size then
          .ok (true, partialOverlap right next (c.fragEnd - right.offset)
            { w with trunc := 0 }.countOverlap)
        else
          match fullAction w.ft.fragPolicy w.fragOffset c.fragEnd right with
          | .dump => rightLoop env ctx p c fuel
              { ({ w with trunc := 0 }.alertOverlap ctx).subBytes right.size with rest := next }
          | .reject =>
            match rejectOverlap env p c right next ({ w with trunc := 0 }.alertOverlap ctx) with
            | .error e => .error e
            | .ok (.again, w) => rightLoop env ctx p c fuel w
            | .ok (.leave addthis, w) => .ok (addthis, w)
      else .ok (true, w) := by
  obtain ⟨-, ho, -, hp⟩ := ({ w with trunc := 0 } : Walk).alertOverlap_eqs ctx
  obtain ⟨ft, before, mid, rest, fragOffset, slide, trunc, alerted⟩ := w
  simp only at h ho hp
  subst h
  simp only [rightLoop, ho, hp] <;> rfl

/-- A round of the loop, entered with `trunc = 0`. -/
theorem rightLoop_cons (h : w.rest = right :: next) (ht : w.trunc = 0) :
    rightLoop env ctx p c (fuel + 1) w =
      if right.offset < c.fragEnd then
        if (c.fragEnd : ℤ) - right.offset ≠ 0 ∧ teardrop p c w.ft then .error (.attack, w.setBad)
        else if (c.fragEnd : ℤ) - right.offset < right.size then
          .ok (true, partialOverlap right next (c.fragEnd - right.offset) w.countOverlap)
        else
          match fullAction w.ft.fragPolicy w.fragOffset c.fragEnd right with
          | .dump => rightLoop env ctx p c fuel
              { (w.alertOverlap ctx).subBytes right.size with rest := next }
          | .reject =>
            match rejectOverlap env p c right next (w.alertOverlap ctx) with
            | .error e => .error e
            | .ok (.again, w) => rightLoop env ctx p c fuel w
            | .ok (.leave addthis, w) => .ok (addthis, w)
      else .ok (true, w) := by
  have hsame : { w with trunc := 0 } = w := by rw [← ht]
  rw [rightLoop_round h, hsame]

theorem Open.alert (hw : Open c w) (ctx : Frag3Context) :
    Open c (w.alertOverlap ctx) ∧ Goes p c w (w.alertOverlap ctx) := by
  unfold Walk.alertOverlap
  split_ifs
  · exact ⟨hw.of_eq rfl rfl rfl rfl rfl, Safe.same hw.laid rfl ⟨_, _, rfl⟩, fun _ => Iff.rfl, fun _ => ⟨rfl, rfl⟩⟩
  · exact ⟨hw, Safe.same hw.laid rfl ⟨_, _, rfl⟩, fun _ => Iff.rfl, fun _ => ⟨rfl, rfl⟩⟩

end Loop

/-- **The right-side loop is sound**: from an open walk that is chunk safe it leaves a laid out
list and knows what is left to link. -/
theorem rightLoop_post (env : Env) (ctx : Frag3Context) {p : Packet} {c : Cut}
    (hc : CutOk p c) :
    ∀ (fuel : ℕ) (w : Walk), Open c w → w.rest.length < fuel → w.trunc = 0 →
      (w.ft.fragPolicy = .first → c.origOffset = c.fragOffset) →
      w.fragOffset ≤ c.fragEnd →
      (teardrop p c w.ft ∨
        ChunkSafe w.ft.fragPolicy c.fragOffset w.fragOffset c.fragEnd w.rest) →
      LoopPost p c w (rightLoop env ctx p c fuel w) := by
  intro fuel
  induction fuel with
  | zero => intro w _ h; omega
  | succ fuel ih =>
    intro w hw hfuel htr horig hend hsafe
    have hdone : (∀ n ∈ w.rest, c.fragEnd ≤ n.offset) → Ready p c w w := fun hge =>
      hw.ready_end hc htr hend hge
    cases hrest : w.rest with
    | nil =>
      rw [rightLoop_nil hrest]
      exact hdone (by rw [hrest]; simp)
    | cons right next =>
      have hn : w.nodes = w.before.reverse ++ right :: next := by
        rw [Walk.nodes_eq hw.mid, hrest]
      have hlr := tiled_cons.1 (tiled_append.1 (hn ▸ hw.laid : Laid _)).2.1
      have hge := hw.right right (by rw [hrest]; exact List.mem_cons_self)
      have hbd := hw.bounded right (by rw [hn]; simp)
      rw [rightLoop_cons hrest htr]
      split_ifs with hlt htear hpart
      · exact ⟨by simp, by simp, Safe.same hw.laid rfl ⟨_, _, rfl⟩⟩
      · -- the held fragment reaches beyond the new one
        replace hsafe := hsafe.resolve_left fun ht => htear ⟨by omega, ht⟩
        have hov : c.fragEnd < right.stop := by simp only [Frag3Frag.stop]; omega
        have hw' : Open c w.countOverlap := hw.of_eq rfl rfl rfl rfl rfl
        have hgo : Goes p c w w.countOverlap :=
          ⟨Safe.same hw.laid rfl ⟨_, _, rfl⟩, fun _ => Iff.rfl, fun _ => ⟨rfl, rfl⟩⟩
        exact LoopPost.of_goes hgo (partialOverlap_ready hc hw' htr hrest hlt hov hsafe)
      · -- the new fragment covers the held one
        replace hsafe := hsafe.resolve_left fun ht => htear ⟨by omega, ht⟩
        have hstop : right.stop ≤ c.fragEnd := by simp only [Frag3Frag.stop]; omega
        obtain ⟨hw', hgo⟩ := hw.alert ctx
        have hal := w.alertOverlap_eqs ctx
        generalize w.alertOverlap ctx = w₁ at hal hw' hgo
        obtain ⟨hr₁, ho₁, ht₁, hp₁⟩ := hal
        have hrest₁ : w₁.rest = right :: next := hr₁.trans hrest
        rw [← hp₁, ← ho₁] at hsafe ⊢
        rw [hrest] at hsafe
        cases hact : fullAction w₁.ft.fragPolicy w₁.fragOffset c.fragEnd right with
        | dump =>
          obtain ⟨hnf, hact'⟩ := fullAction_dump hact
          obtain ⟨hopen, hgoes⟩ := hw'.dump hrest₁ hstop hnf
          refine LoopPost.of_goes (hgo.trans hgoes) (ih _ hopen ?_ ?_ ?_ ?_ ?_)
          · rw [hrest] at hfuel
            exact Nat.lt_of_succ_lt_succ hfuel
          · exact ht₁.trans htr
          · exact fun hf => absurd hf hnf
          · exact ho₁.trans_le hend
          · refine Or.inr ?_
            rcases hact' with hr | hbefore
            · exact ChunkSafe.of_not_rejects hr
            · refine ChunkSafe.of_beyond hnf fun n hmem => hbefore.trans_le ?_
              exact (Nat.le_add_right _ _).trans (hlr.1 n hmem)
        | reject =>
          obtain ⟨hrej, hnl, hfirst⟩ := fullAction_reject hact hstop
          have hpost : RejectPost p c w₁ (rejectOverlap env p c right next w₁) := by
            by_cases hsm : right.offset = w₁.fragOffset
            · exact rejectOverlap_same hc hw' (ht₁.trans htr) hrest₁ hsm hstop hnl
                (hsafe.head hlt hsm hrej).1
            · have hgt : w₁.fragOffset < right.offset := by omega
              refine rejectOverlap_gap hc hw' hrest₁ hgt hlt hstop hnl (hp₁ ▸ horig) ?_
              rcases hfirst hgt with hf | hs
              · exact Or.inl ⟨hf, hsafe.gap hlt hsm hf⟩
              · exact Or.inr hs
          simp only
          match hres : rejectOverlap env p c right next w₁, hpost with
          | .error (ret, w₂), hpost =>
            exact ⟨hpost.1, fun hl => absurd (hp₁.trans hl) hnl, hgo.toSafe.trans hpost.2⟩
          | .ok (.leave addthis, w₂), hpost => exact LoopPost.of_goes hgo hpost
          | .ok (.again, w₂), ⟨hgoes, hopen, hlen, ht₂, hend₂, hchunk⟩ =>
            refine LoopPost.of_goes (hgo.trans hgoes) (ih _ hopen ?_ ht₂ ?_ hend₂ ?_)
            · rw [hr₁] at hlen; omega
            · rw [hgoes.policy, hp₁]; exact horig
            · rw [hgoes.policy]; exact Or.inr hchunk
      · refine hdone fun n hmem => ?_
        rw [hrest] at hmem
        rcases List.mem_cons.1 hmem with rfl | hmem
        · omega
        · have := hlr.1 n hmem
          simp only [Frag3Frag.stop] at *
          omega

end Snort.Frag3
